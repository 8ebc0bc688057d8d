import RoblSampleCodes.MulticastServer

namespace RoblSampleCodes.MulticastClient

open ByteMemory Packet MulticastServer

structure Report where
  ip : BitVec 32
  serialNumber : List Byte
  swVersion : SwVersion
  deriving DecidableEq

inductive Reception
  | noData
  | invalidXid
  | invalidFvmStatus
  | heartbeat (report : Report)
  deriving DecidableEq

def received (datagram : List Byte) : List Byte := datagram.take pktBufLen

/-- The cleared buffer with a datagram in it. -/
def rxBuf (datagram : List Byte) : Memory := ofList (received datagram)

def receive (ip : BitVec 32) (datagram : List Byte) : Reception :=
  let bytesReceived := (received datagram).length
  let msgHeader := readHdr (rxBuf datagram)
  let fvmHeartbeat := readHeartbeat (rxBuf datagram) pktHdrSz
  if bytesReceived = 0 then .noData
  else if msgHeader.xid ≠ heartbeatXid then .invalidXid
  else if fvmHeartbeat.fvmStatus ≠ 0 then .invalidFvmStatus
  else
    -- the string starts at the field and ends at the first NUL of the buffer
    .heartbeat ⟨ip, cString (rxBuf datagram) (pktHdrSz + 20) (pktBufLen - (pktHdrSz + 20)),
      fvmHeartbeat.swVersion⟩

def Reports (datagram : List Byte) : Prop := ∀ ip, ∃ report, receive ip datagram = .heartbeat report

/-- The checks that the packet format defines, over the bytes that were received. -/
structure Intact (datagram : List Byte) : Prop where
  complete : pktHdrSz + fvmHeartbeatSz ≤ (received datagram).length
  magic : (readHdr (rxBuf datagram)).magic = pktMagic
  pl : pktHdrSz + (readHdr (rxBuf datagram)).pl.toNat ≤ (received datagram).length
  crc32 : (readHdr (rxBuf datagram)).crc32 = packetCrc32 (readHdr (rxBuf datagram))
    (slice (rxBuf datagram) pktHdrSz (readHdr (rxBuf datagram)).pl.toNat)

/-- The received bytes are a packet as a sender makes it, with room for a heartbeat. -/
def IsPacket (bytes : List Byte) : Prop :=
  ∃ hdr payload rest, Encodes hdr payload ∧ bytes = hdr.bytes ++ payload ++ rest ∧
    fvmHeartbeatSz ≤ (payload ++ rest).length

theorem reports_iff (datagram : List Byte) :
    Reports datagram ↔ datagram ≠ [] ∧ (readHdr (rxBuf datagram)).xid = heartbeatXid ∧
      (readHeartbeat (rxBuf datagram) pktHdrSz).fvmStatus = 0 := by
  have hlen : (received datagram).length = 0 ↔ datagram = [] := by
    rw [received, List.length_take, Nat.min_eq_zero_iff, List.length_eq_zero_iff]
    exact or_iff_right (by decide)
  constructor
  · intro h
    obtain ⟨report, hreport⟩ := h 0
    simp only [receive] at hreport
    split at hreport
    · cases hreport
    · split at hreport
      · cases hreport
      · split at hreport
        · cases hreport
        · rename_i h0 hxid hstatus
          exact ⟨fun hnil => h0 (hlen.mpr hnil), not_not.mp hxid, not_not.mp hstatus⟩
  · rintro ⟨hne, hxid, hstatus⟩ ip
    simp only [receive, hlen, hne, hxid, hstatus, if_false, ne_eq, not_true_eq_false]
    exact ⟨_, rfl⟩

theorem isPacket_of_intact {datagram : List Byte} (h : Intact datagram) :
    IsPacket (received datagram) := by
  have hlen := h.complete
  have hhdr : (received datagram).take pktHdrSz = (readHdr (rxBuf datagram)).bytes := by
    have hslice := holds_iff_slice.mp (holds_hdrBytes (rxBuf datagram))
    rw [length_hdrBytes, rxBuf, slice_ofList (by omega), List.drop_zero] at hslice
    exact hslice
  have hpayload : slice (rxBuf datagram) pktHdrSz (readHdr (rxBuf datagram)).pl.toNat =
      ((received datagram).drop pktHdrSz).take (readHdr (rxBuf datagram)).pl.toNat := slice_ofList h.pl
  refine ⟨readHdr (rxBuf datagram), slice (rxBuf datagram) pktHdrSz (readHdr (rxBuf datagram)).pl.toNat,
    (received datagram).drop (pktHdrSz + (readHdr (rxBuf datagram)).pl.toNat),
    ⟨h.magic, by rw [length_slice], h.crc32⟩, ?_, ?_⟩
  · rw [← hhdr, hpayload, List.append_assoc, ← List.drop_drop, List.take_append_drop,
      List.take_append_drop]
  · have hpl := h.pl
    rw [List.length_append, length_slice, List.length_drop]
    omega

theorem intact_of_isPacket {datagram : List Byte} (h : IsPacket (received datagram)) :
    Intact datagram := by
  obtain ⟨hdr, payload, rest, hencodes, hbytes, hroom⟩ := h
  have hholds := holds_ofList (received datagram)
  have hread : readHdr (rxBuf datagram) = hdr := by
    apply readHdr_of_holds
    rw [rxBuf]
    nth_rewrite 2 [hbytes] at hholds
    exact (holds_append.mp (holds_append.mp hholds).1).1
  have hlen : (received datagram).length = pktHdrSz + (payload ++ rest).length := by
    rw [hbytes, List.append_assoc, List.length_append, length_hdrBytes]
  have hpl : pktHdrSz + hdr.pl.toNat ≤ (received datagram).length := by
    rw [hlen, hencodes.pl, List.length_append]
    omega
  refine ⟨by omega, by rw [hread, hencodes.magic], by rw [hread]; exact hpl, ?_⟩
  rw [hread, rxBuf, slice_ofList hpl, hbytes, List.append_assoc, ← length_hdrBytes hdr, List.drop_left,
    hencodes.pl, List.take_left]
  exact hencodes.crc32

/-- The client reports only intact heartbeats just if it rejects the datagram, or the
datagram is a packet as a sender makes it. -/
theorem receive_intact_iff (datagram : List Byte) :
    (Reports datagram → Intact datagram) ↔ datagram = [] ∨
      ((readHdr (rxBuf datagram)).xid = heartbeatXid →
        (readHeartbeat (rxBuf datagram) pktHdrSz).fvmStatus ≠ 0) ∨ IsPacket (received datagram) := by
  rw [reports_iff]
  constructor
  · intro h
    by_cases hreports : datagram ≠ [] ∧ (readHdr (rxBuf datagram)).xid = heartbeatXid ∧
        (readHeartbeat (rxBuf datagram) pktHdrSz).fvmStatus = 0
    · exact .inr (.inr (isPacket_of_intact (h hreports)))
    · tauto
  · rintro (hnil | htests | hpacket) ⟨hne, hxid, hstatus⟩
    · exact absurd hnil hne
    · exact absurd hstatus (htests hxid)
    · exact intact_of_isPacket hpacket

theorem read_of_received {datagram rest : List Byte} {hdr : PktHdr} {hb : FVMHeartbeat}
    (hpart : hb.partNumber.length = 16) (hserial : hb.serialNumber.length = 16)
    (h : received datagram = hdr.bytes ++ hb.bytes ++ rest) :
    readHdr (rxBuf datagram) = hdr ∧ readHeartbeat (rxBuf datagram) pktHdrSz = hb := by
  have hholds := holds_ofList (received datagram)
  nth_rewrite 2 [h] at hholds
  obtain ⟨hhdr, hhb⟩ := holds_append.mp (holds_append.mp hholds).1
  rw [length_hdrBytes, Nat.zero_add] at hhb
  exact ⟨readHdr_of_holds hhdr, readHeartbeat_of_holds hpart hserial hhb⟩

/-- The client reports every packet with a heartbeat whose `fvmStatus` is 0. -/
theorem receive_heartbeat {datagram rest : List Byte} {hdr : PktHdr} {hb : FVMHeartbeat}
    (hpart : hb.partNumber.length = 16) (hserial : hb.serialNumber.length = 16)
    (hencodes : Encodes hdr hb.bytes) (hbytes : received datagram = hdr.bytes ++ hb.bytes ++ rest)
    (hroom : fvmHeartbeatSz ≤ (hb.bytes ++ rest).length) (hxid : hdr.xid = heartbeatXid)
    (hstatus : hb.fvmStatus = 0) : Reports datagram ∧ Intact datagram := by
  have hintact : Intact datagram := intact_of_isPacket ⟨hdr, hb.bytes, rest, hencodes, hbytes, hroom⟩
  obtain ⟨hhdr, hhb⟩ := read_of_received hpart hserial hbytes
  refine ⟨(reports_iff datagram).mpr ⟨?_, ?_, ?_⟩, hintact⟩
  · rintro rfl
    exact absurd hintact.complete (by decide)
  · rw [hhdr, hxid]
  · rw [hhb, hstatus]

/-- The client reports what the server sends, and it is intact. -/
theorem receive_pktBuf : Reports pktBuf ∧ Intact pktBuf := by
  have hall : received pktBuf = pktBuf := List.take_of_length_le (by decide +kernel)
  obtain ⟨hencodes, rest, hbytes, hroom⟩ := pktBuf_encodes
  exact receive_heartbeat (by decide) (by decide) hencodes (hall.trans hbytes) hroom rfl rfl

/-- The server's datagram, cut before its CRC or changed in its payload, is reported. -/
theorem receive_notIntact :
    ¬ (Reports (pktBuf.take 20) → Intact (pktBuf.take 20)) ∧
      ¬ (Reports (pktBuf.set 32 1) → Intact (pktBuf.set 32 1)) := by
  refine ⟨fun h => ?_, fun h => ?_⟩
  · have hcomplete := (h ((reports_iff _).mpr (by decide +kernel))).complete
    revert hcomplete
    decide +kernel
  · have hcrc := (h ((reports_iff _).mpr (by decide +kernel))).crc32
    revert hcrc
    decide +kernel

end RoblSampleCodes.MulticastClient
