import RoblSampleCodes.ByteMemory
import RoblSampleCodes.Crc32

namespace RoblSampleCodes.Packet

open ByteMemory Crc32

structure PktHdr where
  magic : BitVec 32
  spid : BitVec 16
  dpid : BitVec 16
  tpn : BitVec 16
  psn : BitVec 16
  tpl : BitVec 32
  xid : BitVec 32
  crc32 : BitVec 32
  tick : BitVec 32
  pl : BitVec 32
  deriving DecidableEq

structure SwVersion where
  build : Byte
  patch : Byte
  minor : Byte
  major : Byte
  deriving DecidableEq

structure FVMHeartbeat where
  seq : BitVec 32
  partNumber : List Byte
  serialNumber : List Byte
  swVersion : SwVersion
  fvmStatus : BitVec 32
  sensorConnection : BitVec 32
  deriving DecidableEq

def pktHdrSz : Nat := 32

def fvmHeartbeatSz : Nat := 48

def pktPldLen : Nat := 1408

def pktLen : Nat := pktPldLen + pktHdrSz

def blkAlign (a b : Nat) : Nat := b - a % b

def pktBufLen : Nat := pktLen + blkAlign pktLen 1024

def pktMagic : BitVec 32 := 0x41564B53

/-- The packed header at the start of a buffer, on a little-endian machine. -/
def readHdr (mem : Memory) : PktHdr where
  magic := word32 mem 0
  spid := word16 mem 4
  dpid := word16 mem 6
  tpn := word16 mem 8
  psn := word16 mem 10
  tpl := word32 mem 12
  xid := word32 mem 16
  crc32 := word32 mem 20
  tick := word32 mem 24
  pl := word32 mem 28

def readHeartbeat (mem : Memory) (i : Nat) : FVMHeartbeat where
  seq := word32 mem i
  partNumber := slice mem (i + 4) 16
  serialNumber := slice mem (i + 20) 16
  swVersion := ⟨mem (i + 36), mem (i + 37), mem (i + 38), mem (i + 39)⟩
  fvmStatus := word32 mem (i + 40)
  sensorConnection := word32 mem (i + 44)

def PktHdr.bytes (hdr : PktHdr) : List Byte :=
  bytes32 hdr.magic ++ bytes16 hdr.spid ++ bytes16 hdr.dpid ++ bytes16 hdr.tpn ++ bytes16 hdr.psn ++
    bytes32 hdr.tpl ++ bytes32 hdr.xid ++ bytes32 hdr.crc32 ++ bytes32 hdr.tick ++ bytes32 hdr.pl

def FVMHeartbeat.bytes (hb : FVMHeartbeat) : List Byte :=
  bytes32 hb.seq ++ hb.partNumber ++ hb.serialNumber ++
    [hb.swVersion.build, hb.swVersion.patch, hb.swVersion.minor, hb.swVersion.major] ++
    bytes32 hb.fvmStatus ++ bytes32 hb.sensorConnection

/-- The CRC of a packet: over its header with `crc32` set to 0, and its payload. -/
def packetCrc32 (hdr : PktHdr) (payload : List Byte) : BitVec 32 :=
  calculateCrc32 ({ hdr with crc32 := 0 }.bytes ++ payload) 0

/-- The header that a sender fills in for a payload. -/
structure Encodes (hdr : PktHdr) (payload : List Byte) : Prop where
  magic : hdr.magic = pktMagic
  pl : hdr.pl.toNat = payload.length
  crc32 : hdr.crc32 = packetCrc32 hdr payload

theorem length_hdrBytes (hdr : PktHdr) : hdr.bytes.length = pktHdrSz := by
  simp [PktHdr.bytes, pktHdrSz]

theorem holds_hdrBytes (mem : Memory) : Holds mem 0 (readHdr mem).bytes := by
  simp only [PktHdr.bytes, holds_append, List.length_append, length_bytes32, length_bytes16, Nat.zero_add,
    Nat.reduceAdd]
  exact ⟨⟨⟨⟨⟨⟨⟨⟨⟨holds_bytes32 mem _, holds_bytes16 mem _⟩, holds_bytes16 mem _⟩, holds_bytes16 mem _⟩,
    holds_bytes16 mem _⟩, holds_bytes32 mem _⟩, holds_bytes32 mem _⟩, holds_bytes32 mem _⟩,
    holds_bytes32 mem _⟩, holds_bytes32 mem _⟩

theorem readHdr_of_holds {mem : Memory} {hdr : PktHdr} (h : Holds mem 0 hdr.bytes) :
    readHdr mem = hdr := by
  simp only [PktHdr.bytes, holds_append, List.length_append, length_bytes32, length_bytes16,
    Nat.zero_add] at h
  obtain ⟨⟨⟨⟨⟨⟨⟨⟨⟨hmagic, hspid⟩, hdpid⟩, htpn⟩, hpsn⟩, htpl⟩, hxid⟩, hcrc⟩, htick⟩, hpl⟩ := h
  simp only [readHdr, word32_of_holds hmagic, word16_of_holds hspid, word16_of_holds hdpid,
    word16_of_holds htpn, word16_of_holds hpsn, word32_of_holds htpl, word32_of_holds hxid,
    word32_of_holds hcrc, word32_of_holds htick, word32_of_holds hpl]

theorem readHeartbeat_of_holds {mem : Memory} {i : Nat} {hb : FVMHeartbeat}
    (hpart : hb.partNumber.length = 16) (hserial : hb.serialNumber.length = 16)
    (h : Holds mem i hb.bytes) : readHeartbeat mem i = hb := by
  simp only [FVMHeartbeat.bytes, holds_append, List.length_append, length_bytes32, hpart, hserial,
    List.length_cons, List.length_nil, Nat.reduceAdd] at h
  obtain ⟨⟨⟨⟨⟨hseq, hpart'⟩, hserial'⟩, hsw⟩, hstatus⟩, hsensor⟩ := h
  rw [holds_iff_slice, hpart] at hpart'
  rw [holds_iff_slice, hserial] at hserial'
  have hsw0 := hsw 0 (by simp)
  have hsw1 := hsw 1 (by simp)
  have hsw2 := hsw 2 (by simp)
  have hsw3 := hsw 3 (by simp)
  simp only [Nat.add_assoc, Nat.reduceAdd, Nat.add_zero, List.getElem_cons_zero,
    List.getElem_cons_succ] at hsw0 hsw1 hsw2 hsw3
  simp only [readHeartbeat, word32_of_holds hseq, hpart', hserial', hsw0, hsw1, hsw2, hsw3,
    word32_of_holds hstatus, word32_of_holds hsensor]

end RoblSampleCodes.Packet
