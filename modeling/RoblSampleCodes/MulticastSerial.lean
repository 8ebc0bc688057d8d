import RoblSampleCodes.MulticastClient

namespace RoblSampleCodes.MulticastSerial

open ByteMemory Packet MulticastServer MulticastClient

def heartbeat (datagram : List Byte) : FVMHeartbeat := readHeartbeat (rxBuf datagram) pktHdrSz

def fieldText (field : List Byte) : List Byte := field.takeWhile (· ≠ 0)

/-- Two reports agree on the serial number, which is the text of the field. -/
def SerialFromField (datagram datagram' : List Byte) : Prop :=
  ∀ ip ip' report report', receive ip datagram = .heartbeat report →
    receive ip' datagram' = .heartbeat report' →
    report.serialNumber = report'.serialNumber ∧
      report.serialNumber = fieldText (heartbeat datagram).serialNumber

theorem serialNumber_of_receive {ip : BitVec 32} {datagram : List Byte} {report : Report}
    (h : receive ip datagram = .heartbeat report) :
    report.serialNumber =
      cString (rxBuf datagram) (pktHdrSz + 20) (pktBufLen - (pktHdrSz + 20)) := by
  simp only [receive] at h
  split at h
  · cases h
  · split at h
    · cases h
    · split at h
      · cases h
      · obtain rfl := Reception.heartbeat.inj h
        dsimp only

theorem cString_serialNumber (mem : Memory) (i : Nat) {n : Nat} (h : 16 < n) :
    cString mem (i + 20) n = fieldText (readHeartbeat mem i).serialNumber ↔
      0 ∈ (readHeartbeat mem i).serialNumber ∨ (readHeartbeat mem i).swVersion.build = 0 :=
  cString_eq_takeWhile_iff h

/-- The string is the field's own text just if a NUL ends it there or right after it. -/
theorem serialNumber_eq_iff {ip : BitVec 32} {datagram : List Byte} {report : Report}
    (h : receive ip datagram = .heartbeat report) :
    report.serialNumber = fieldText (heartbeat datagram).serialNumber ↔
      0 ∈ (heartbeat datagram).serialNumber ∨ (heartbeat datagram).swVersion.build = 0 := by
  have hlong : 16 < pktBufLen - (pktHdrSz + 20) := by decide
  rw [serialNumber_of_receive h]
  exact cString_serialNumber (rxBuf datagram) pktHdrSz hlong

/-- Two accepted datagrams with the same field have the serial number of the field just if the
field has a NUL, or both versions start with one. -/
theorem serialFromField_iff {datagram datagram' : List Byte} (h : Reports datagram)
    (h' : Reports datagram')
    (hsame : (heartbeat datagram).serialNumber = (heartbeat datagram').serialNumber) :
    SerialFromField datagram datagram' ↔ 0 ∈ (heartbeat datagram).serialNumber ∨
      (heartbeat datagram).swVersion.build = 0 ∧ (heartbeat datagram').swVersion.build = 0 := by
  obtain ⟨report, hreport⟩ := h 0
  obtain ⟨report', hreport'⟩ := h' 0
  rw [or_and_left, SerialFromField]
  constructor
  · intro hall
    obtain ⟨heq, htext⟩ := hall 0 0 report report' hreport hreport'
    refine ⟨(serialNumber_eq_iff hreport).mp htext, ?_⟩
    rw [hsame, ← serialNumber_eq_iff hreport', ← heq, htext, hsame]
  · rintro ⟨hfirst, hsecond⟩ ip ip' report report' hreport hreport'
    rw [hsame] at hsecond
    have htext := (serialNumber_eq_iff hreport).mpr hfirst
    have htext' := (serialNumber_eq_iff hreport').mpr hsecond
    exact ⟨by rw [htext, htext', hsame], htext⟩

def variant (serialNumber : List Byte) (build : Byte) : List Byte :=
  pktHdr.bytes ++
    { pktPayload with serialNumber := serialNumber, swVersion := ⟨build, 7, 8, 9⟩ }.bytes

theorem serialFromField_iff_server :
    SerialFromField (variant (strncpyField "1234567".toList) 6)
        (variant (strncpyField "1234567".toList) 5) ↔
      0 ∈ (heartbeat (variant (strncpyField "1234567".toList) 6)).serialNumber ∨
        (heartbeat (variant (strncpyField "1234567".toList) 6)).swVersion.build = 0 ∧
          (heartbeat (variant (strncpyField "1234567".toList) 5)).swVersion.build = 0 :=
  serialFromField_iff ((reports_iff _).mpr (by decide +kernel)) ((reports_iff _).mpr (by decide +kernel))
    (by decide +kernel)

/-- Sixteen letters fill the field, and the version is read as more of them. -/
theorem not_serialFromField :
    Reports (variant (List.replicate 16 0x41) 6) ∧ Reports (variant (List.replicate 16 0x41) 5) ∧
      (heartbeat (variant (List.replicate 16 0x41) 6)).serialNumber =
        (heartbeat (variant (List.replicate 16 0x41) 5)).serialNumber ∧
      ¬ SerialFromField (variant (List.replicate 16 0x41) 6) (variant (List.replicate 16 0x41) 5) := by
  have hreports : Reports (variant (List.replicate 16 0x41) 6) := (reports_iff _).mpr (by decide +kernel)
  have hreports' : Reports (variant (List.replicate 16 0x41) 5) := (reports_iff _).mpr (by decide +kernel)
  refine ⟨hreports, hreports', by decide +kernel, fun h => ?_⟩
  obtain ⟨report, hreport⟩ := hreports 0
  obtain ⟨report', hreport'⟩ := hreports' 0
  have htext := (serialNumber_eq_iff hreport).mp (h 0 0 report report' hreport hreport').2
  revert htext
  decide +kernel

end RoblSampleCodes.MulticastSerial
