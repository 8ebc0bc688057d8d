import RoblSampleCodes.ByteMemory
import RoblSampleCodes.CheckedInt
import RoblSampleCodes.PromiseMap

namespace RoblSampleCodes.RouteList

open ByteMemory CheckedInt PromiseMap

def ackSize : Nat := 16

def recSize : Nat := 64

def recordAt (i : Nat) : Nat := ackSize + recSize * i

def bufLen (recordSize : BitVec 32) : Nat :=
  (BitVec.ofNat 64 ackSize + recordSize.setWidth 64 * BitVec.ofNat 64 recSize).toNat

def increment (i : Nat) : Option Nat := (checked (i + 1)).map Int.toNat

/-- The four stores before the loop. The buffer is what the stack holds there. -/
def writeHeader (m : Message) : Memory :=
  storeBytes (storeBytes (storeBytes (storeBytes m.stack 0 (bytes32 0)) 4 (bytes32 m.sessionIx)) 8
    (bytes32 m.rcsTick)) 12 (bytes32 m.recordSize)

/-- The body of the loop. It is undefined when `sprintf` writes outside of the buffer. -/
def sprintfRoute (len : Nat) (mem : Memory) (i : Nat) : Option Memory :=
  if recordAt i + (routeText i).length ≤ len then some (storeBytes mem (recordAt i) (routeText i))
  else none

/-- The loop of `Receive`, or `none` when the fuel runs out or the behaviour is undefined. The
comparison is one of `uint32_t`. -/
def sprintfLoop (len : Nat) : Nat → Nat → Memory → Option Memory
  | 0, _, _ => none
  | fuel + 1, i, mem =>
    if BitVec.ofNat 32 i < word32 mem 12 then
      (sprintfRoute len mem i).bind fun mem => (increment i).bind fun i => sprintfLoop len fuel i mem
    else some mem

def receiveBytes (fuel : Nat) (m : Message) : Option Bytes :=
  (sprintfLoop (bufLen m.recordSize) fuel 0 (writeHeader m)).map (slice · 0 (bufLen m.recordSize))

structure RouteListAck where
  result : BitVec 32
  sessionIx : BitVec 32
  rcsTick : BitVec 32
  routeListNo : BitVec 32
  routeList : List Bytes
  deriving DecidableEq

def printLoop (response : Bytes) : Nat → Nat → Option (List Bytes)
  | 0, _ => none
  | fuel + 1, i => do
    let routeListNo ← read32 (ofList response) 0 response.length 12
    if BitVec.ofNat 32 i < routeListNo then
      let route ← readString (ofList response) response.length (recordAt i)
      let next ← increment i
      let routes ← printLoop response fuel next
      return route :: routes
    else return []

/-- What `Request` prints. It is undefined when it reads outside of the response. -/
def request (fuel : Nat) (response : Bytes) : Option RouteListAck := do
  let result ← read32 (ofList response) 0 response.length 0
  let sessionIx ← read32 (ofList response) 0 response.length 4
  let rcsTick ← read32 (ofList response) 0 response.length 8
  let routeListNo ← read32 (ofList response) 0 response.length 12
  let routeList ← printLoop response fuel 0
  return ⟨result, sessionIx, rcsTick, routeListNo, routeList⟩

def routeName (i : Nat) : Bytes := ascii ("route_" ++ toString i)

def headerBytes (m : Message) : Bytes :=
  bytes32 0 ++ bytes32 m.sessionIx ++ bytes32 m.rcsTick ++ bytes32 m.recordSize

def bufUpTo (m : Message) (n : Nat) : Bytes :=
  headerBytes m ++ (List.range n).flatMap (fun i => routeRecord m.stack (recordAt i) i)

variable {m : Message} {mem : Memory} {i n : Nat}

theorem routeText_eq (i : Nat) : routeText i = routeName i ++ [0] := rfl

theorem bufUpTo_recordSize (m : Message) : bufUpTo m m.recordSize.toNat = m.buf := rfl

theorem bufUpTo_succ (m : Message) (n : Nat) :
    bufUpTo m (n + 1) = bufUpTo m n ++ routeRecord m.stack (recordAt n) n := by
  rw [bufUpTo, List.range_succ, List.flatMap_append, List.flatMap_singleton, ← List.append_assoc, bufUpTo]

theorem bufLen_eq (recordSize : BitVec 32) : bufLen recordSize = recordAt recordSize.toNat := by
  have hlt := recordSize.isLt
  rw [bufLen, recordAt, BitVec.toNat_add, BitVec.toNat_mul, BitVec.toNat_setWidth, BitVec.toNat_ofNat,
    BitVec.toNat_ofNat, ackSize, recSize]
  omega

theorem increment_eq (h : i < 2 ^ 31 - 1) : increment i = some (i + 1) := by
  rw [increment, checked_eq (by omega) (by unfold intMax; omega), Option.map_some]
  rfl

theorem toList_routeName (i : Nat) :
    ("route_" ++ toString i).toList = "route_".toList ++ Nat.toDigits 10 i := by
  rw [String.toList_append]
  exact congrArg _ Nat.toList_repr

theorem length_routeName_le (h : i < 2 ^ 31) : (routeName i).length ≤ 16 := by
  have hdigits : (Nat.toDigits 10 i).length ≤ 10 :=
    (Nat.length_toDigits_le_iff (by decide) (by decide)).mpr (by omega)
  rw [routeName, ascii, List.length_map, toList_routeName, List.length_append]
  exact Nat.add_le_add_left hdigits 6

theorem length_routeText_le (h : i < 2 ^ 31) : (routeText i).length ≤ recSize := by
  have hname := length_routeName_le h
  rw [routeText_eq, List.length_append, List.length_singleton, recSize]
  omega

theorem zero_notMem_routeName (i : Nat) : 0 ∉ routeName i := by
  rw [routeName, ascii, toList_routeName, List.map_append, List.mem_append, not_or]
  refine ⟨by decide, fun h => ?_⟩
  obtain ⟨c, hc, hzero⟩ := List.mem_map.mp h
  have hdigit := Char.isDigit_iff_toNat.mp (Nat.isDigit_of_mem_toDigits (by decide) (by decide) hc)
  have hval : c.toNat % 256 = 0 := congrArg BitVec.toNat hzero
  have hnine : '9'.toNat = 57 := rfl
  have hdigitZero : '0'.toNat = 48 := rfl
  omega

theorem length_routeRecord (h : i < 2 ^ 31) (offset : Nat) :
    (routeRecord m.stack offset i).length = recSize := by
  have htext := length_routeText_le h
  rw [routeRecord, List.length_append, List.length_map, List.length_range']
  exact Nat.add_sub_of_le htext

theorem length_bufUpTo (h : n ≤ 2 ^ 31) : (bufUpTo m n).length = recordAt n := by
  induction n with
  | zero => rfl
  | succ n ih =>
    rw [bufUpTo_succ, List.length_append, ih (by omega), length_routeRecord h]
    rfl

structure Written (m : Message) (n : Nat) (mem : Memory) : Prop where
  holds : Holds mem 0 (bufUpTo m n)
  rest : ∀ a, recordAt n ≤ a → mem a = m.stack a

theorem written_writeHeader (m : Message) : Written m 0 (writeHeader m) := by
  refine ⟨?_, fun a ha => ?_⟩
  · rw [bufUpTo, List.range_zero, List.flatMap_nil, List.append_nil, headerBytes]
    simp only [holds_append, List.length_append, length_bytes32, Nat.zero_add, Nat.reduceAdd]
    refine ⟨⟨⟨?_, ?_⟩, ?_⟩, holds_storeBytes _ _ _⟩
    · have hresult := (holds_storeBytes m.stack 0 (bytes32 0)).storeBytes (j := 4) (by simp)
      exact ((hresult _).storeBytes (by simp) _).storeBytes (by simp) _
    · exact ((holds_storeBytes _ 4 _).storeBytes (by simp) _).storeBytes (by simp) _
    · exact (holds_storeBytes _ 8 _).storeBytes (by simp) _
  · have ha' : 16 ≤ a := ha
    rw [writeHeader, storeBytes_of_outside, storeBytes_of_outside, storeBytes_of_outside,
      storeBytes_of_outside] <;> rw [length_bytes32] <;> omega

theorem Written.succ (h : Written m n mem) (hn : n < 2 ^ 31) :
    Written m (n + 1) (storeBytes mem (recordAt n) (routeText n)) := by
  have htext := length_routeText_le hn
  have hbuf : (bufUpTo m n).length = recordAt n := length_bufUpTo hn.le
  refine ⟨?_, fun a ha => ?_⟩
  · rw [bufUpTo_succ, holds_append, hbuf, Nat.zero_add, routeRecord, holds_append]
    refine ⟨h.holds.storeBytes (by omega) _, holds_storeBytes _ _ _, ?_⟩
    intro k hk
    rw [List.length_map, List.length_range'] at hk
    rw [List.getElem_map, List.getElem_range', storeBytes_of_outside (.inr (by omega)),
      h.rest _ (by omega)]
    congr 1
    omega
  · have hle : recordAt n + recSize ≤ a := ha
    rw [storeBytes_of_outside (.inr (by omega)), h.rest a (by omega)]

theorem holds_header (h : Holds mem 0 (bufUpTo m n)) :
    Holds mem 0 (bytes32 0) ∧ Holds mem 4 (bytes32 m.sessionIx) ∧ Holds mem 8 (bytes32 m.rcsTick) ∧
      Holds mem 12 (bytes32 m.recordSize) := by
  have hheader : Holds mem 0 (headerBytes m) := (holds_append.mp h).1
  simp only [headerBytes, holds_append, List.length_append, length_bytes32, Nat.zero_add,
    Nat.reduceAdd] at hheader
  obtain ⟨⟨⟨hresult, hsession⟩, htick⟩, hno⟩ := hheader
  exact ⟨hresult, hsession, htick, hno⟩

theorem Written.routeListNo (h : Written m n mem) : word32 mem 12 = m.recordSize :=
  word32_of_holds (holds_header h.holds).2.2.2

theorem ofNat_lt_iff {x : BitVec 32} (h : i < 2 ^ 31) : BitVec.ofNat 32 i < x ↔ i < x.toNat := by
  rw [BitVec.lt_def, BitVec.toNat_ofNat, Nat.mod_eq_of_lt (by omega)]

theorem sprintfRoute_eq {recordSize : BitVec 32} (h : recordSize.toNat < 2 ^ 31)
    (hi : i < recordSize.toNat) (mem : Memory) :
    sprintfRoute (bufLen recordSize) mem i = some (storeBytes mem (recordAt i) (routeText i)) := by
  have htext := length_routeText_le (hi.trans h)
  have hroom : recordAt i + recSize ≤ bufLen recordSize := by
    rw [bufLen_eq]
    unfold recordAt recSize
    omega
  exact if_pos (by omega)

theorem exists_sprintfLoop (h : m.recordSize.toNat < 2 ^ 31) {fuel : Nat} (hw : Written m i mem)
    (hi : i ≤ m.recordSize.toNat) (hfuel : m.recordSize.toNat < i + fuel) :
    ∃ mem', sprintfLoop (bufLen m.recordSize) fuel i mem = some mem' ∧
      Written m m.recordSize.toNat mem' := by
  induction fuel generalizing i mem with
  | zero => omega
  | succ fuel ih =>
    rw [sprintfLoop, hw.routeListNo]
    by_cases hlt : i < m.recordSize.toNat
    · rw [if_pos ((ofNat_lt_iff (hlt.trans h)).mpr hlt), sprintfRoute_eq h hlt, Option.bind_some,
        increment_eq (by omega), Option.bind_some]
      exact ih (hw.succ (hlt.trans h)) hlt (by omega)
    · obtain rfl : i = m.recordSize.toNat := by omega
      rw [if_neg (by rwa [ofNat_lt_iff h])]
      exact ⟨mem, rfl, hw⟩

theorem receiveBytes_eq (h : m.recordSize.toNat < 2 ^ 31) {fuel : Nat}
    (hfuel : m.recordSize.toNat < fuel) : receiveBytes fuel m = some m.buf := by
  obtain ⟨mem, hmem, hw⟩ := exists_sprintfLoop h (written_writeHeader m) (Nat.zero_le _)
    (hfuel.trans_eq (Nat.zero_add fuel).symm)
  have hslice := holds_iff_slice.mp hw.holds
  rw [length_bufUpTo h.le, bufUpTo_recordSize] at hslice
  rw [receiveBytes, hmem, Option.map_some, bufLen_eq, hslice]

theorem holds_routeRecord (h : n ≤ 2 ^ 31) (hmem : Holds mem 0 (bufUpTo m n)) (hi : i < n) :
    Holds mem (recordAt i) (routeRecord m.stack (recordAt i) i) := by
  induction n with
  | zero => omega
  | succ n ih =>
    rw [bufUpTo_succ, holds_append, length_bufUpTo (by omega), Nat.zero_add] at hmem
    rcases Nat.lt_succ_iff_lt_or_eq.mp hi with hlt | rfl
    · exact ih (by omega) hmem.1 hlt
    · exact hmem.2

section Response

variable (h : m.recordSize.toNat < 2 ^ 31)

include h

theorem length_buf : m.buf.length = recordAt m.recordSize.toNat := by
  rw [← bufUpTo_recordSize]
  exact length_bufUpTo h.le

theorem read32_buf {x : BitVec 32} (hi : i + 4 ≤ ackSize) (hx : Holds (ofList m.buf) i (bytes32 x)) :
    read32 (ofList m.buf) 0 m.buf.length i = some x := by
  have hlen : ackSize ≤ m.buf.length := by
    rw [length_buf h]
    exact Nat.le_add_right _ _
  rw [read32_eq (Nat.zero_le i) (hi.trans hlen), word32_of_holds hx]

theorem readString_buf (hi : i < m.recordSize.toNat) :
    readString (ofList m.buf) m.buf.length (recordAt i) = some (routeName i) := by
  have hrecord := holds_routeRecord h.le (holds_ofList m.buf) hi
  have hlen := length_routeRecord (m := m) (hi.trans h) (recordAt i)
  rw [routeRecord, routeText_eq, List.append_assoc, List.singleton_append] at hrecord hlen
  refine readString_of_holds hrecord (zero_notMem_routeName i) ?_
  rw [hlen, length_buf h]
  unfold recordAt recSize
  omega

theorem printLoop_buf {fuel : Nat} (hi : i ≤ m.recordSize.toNat) (hfuel : m.recordSize.toNat < i + fuel)
    (hno : read32 (ofList m.buf) 0 m.buf.length 12 = some m.recordSize) :
    printLoop m.buf fuel i = some ((List.range' i (m.recordSize.toNat - i)).map routeName) := by
  induction fuel generalizing i with
  | zero => omega
  | succ fuel ih =>
    simp only [printLoop, hno, Option.bind_eq_bind, Option.bind_some]
    by_cases hlt : i < m.recordSize.toNat
    · obtain ⟨k, hk⟩ : ∃ k, m.recordSize.toNat - i = k + 1 := ⟨m.recordSize.toNat - i - 1, by omega⟩
      rw [if_pos ((ofNat_lt_iff (hlt.trans h)).mpr hlt), readString_buf h hlt, Option.bind_some,
        increment_eq (by omega), Option.bind_some, ih hlt (by omega), Option.bind_some, hk,
        List.range'_succ, List.map_cons]
      have hrest : m.recordSize.toNat - (i + 1) = k := by omega
      rw [hrest]
      rfl
    · have hrest : m.recordSize.toNat - i = 0 := by omega
      rw [if_neg (by rwa [ofNat_lt_iff (by omega)]), hrest]
      rfl

theorem request_buf {fuel : Nat} (hfuel : m.recordSize.toNat < fuel) :
    request fuel m.buf = some ⟨0, m.sessionIx, m.rcsTick, m.recordSize,
      (List.range m.recordSize.toNat).map routeName⟩ := by
  obtain ⟨hresult, hsession, htick, hno⟩ := holds_header (m := m) (holds_ofList m.buf)
  have hno := read32_buf h (by decide) hno
  have hloop := printLoop_buf h (Nat.zero_le _) (hfuel.trans_eq (Nat.zero_add fuel).symm) hno
  rw [Nat.sub_zero, ← List.range_eq_range'] at hloop
  simp only [request, read32_buf h (by decide) hresult, read32_buf h (by decide) hsession,
    read32_buf h (by decide) htick, hno, hloop, Option.bind_eq_bind, Option.bind_some, Option.pure_def]

end Response

/-- A response is read as it was meant, and a record is written without touching the rest. -/
theorem request_receiveBytes (m : Message) (h : m.recordSize.toNat < 2 ^ 31) :
    ∃ response, (∀ fuel, m.recordSize.toNat < fuel → receiveBytes fuel m = some response ∧
      request fuel response = some ⟨0, m.sessionIx, m.rcsTick, m.recordSize,
        (List.range m.recordSize.toNat).map (fun i => ascii ("route_" ++ toString i))⟩) ∧
    ∀ i < m.recordSize.toNat, (routeText i).length ≤ recSize ∧
      ∀ mem, ∃ mem', sprintfRoute (bufLen m.recordSize) mem i = some mem' ∧
        Holds mem' (recordAt i) (routeText i) ∧ (∀ a < ackSize, mem' a = mem a) ∧
        ∀ j ≠ i, ∀ k < recSize, mem' (recordAt j + k) = mem (recordAt j + k) := by
  refine ⟨m.buf, fun fuel hfuel => ⟨receiveBytes_eq h hfuel, request_buf h hfuel⟩, fun i hi => ?_⟩
  have htext := length_routeText_le (hi.trans h)
  refine ⟨htext, fun mem => ⟨_, sprintfRoute_eq h hi mem, holds_storeBytes _ _ _, fun a ha => ?_,
    fun j hj k hk => ?_⟩⟩
  · exact storeBytes_of_outside (.inl (ha.trans_le (Nat.le_add_right _ _)))
  · apply storeBytes_of_outside
    unfold recordAt recSize at *
    omega

theorem request_receiveBytes_ten :
    ∃ response, receiveBytes 11 ⟨1, 123456, 10, fun _ => 0⟩ = some response ∧
      request 11 response = some ⟨0, 1, 123456, 10,
        (List.range 10).map (fun i => ascii ("route_" ++ toString i))⟩ := by
  obtain ⟨response, h, -⟩ := request_receiveBytes ⟨1, 123456, 10, fun _ => 0⟩ (by decide)
  exact ⟨response, h 11 (by decide)⟩

end RoblSampleCodes.RouteList
