import RoblSampleCodes.Packet

namespace RoblSampleCodes.MulticastServer

open ByteMemory Crc32 Packet

def heartbeatXid : BitVec 32 := 0x45000101

/-- `strncpy` of a text into a cleared field of 16 bytes, whose last byte it leaves. -/
def strncpyField (text : List Char) : List Byte :=
  ((text.map (fun c => BitVec.ofNat 8 c.toNat)).take 15).rightpad 16 0

def pktPayload : FVMHeartbeat where
  seq := 0
  partNumber := strncpyField "ABCDEFG".toList
  serialNumber := strncpyField "1234567".toList
  swVersion := ⟨6, 7, 8, 9⟩
  fvmStatus := 0
  sensorConnection := 0

def clearHdr : PktHdr where
  magic := pktMagic
  spid := 0
  dpid := 0
  tpn := 1
  psn := 0
  tpl := 48
  xid := heartbeatXid
  crc32 := 0
  tick := 0
  pl := 48

def pktHdr : PktHdr :=
  { clearHdr with crc32 := calculateCrc32 (clearHdr.bytes ++ pktPayload.bytes) 0 }

/-- The datagram that the server sends: all of its cleared buffer. -/
def pktBuf : List Byte := (pktHdr.bytes ++ pktPayload.bytes).rightpad pktLen 0

theorem length_pktPayload : pktPayload.bytes.length = fvmHeartbeatSz := by
  decide +kernel

theorem pktBuf_encodes :
    Encodes pktHdr pktPayload.bytes ∧
      ∃ rest, pktBuf = pktHdr.bytes ++ pktPayload.bytes ++ rest ∧
        fvmHeartbeatSz ≤ (pktPayload.bytes ++ rest).length := by
  refine ⟨⟨rfl, ?_, rfl⟩, _, rfl, ?_⟩
  · rw [length_pktPayload]
    rfl
  · rw [List.length_append, length_pktPayload]
    exact Nat.le_add_right _ _

end RoblSampleCodes.MulticastServer
