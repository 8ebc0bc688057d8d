import RoblSampleCodes.InterfaceTableDump

namespace RoblSampleCodes.IpChanged

open ByteMemory AlignedRecords Rtnetlink InterfaceTable InterfaceTableDump

def bufferLen : Nat := 4096

/-- The buffer after a call of `recv`, which drops what it has no room for. -/
def recv (buffer : Memory) (datagram : List Byte) : Memory := filled bufferLen buffer datagram

def handleMessage (mem : Memory) (idx : BitVec 32) (nlh : Nat) (found : Int) : Int :=
  if nlmsgType mem nlh = rtmNewaddr then
    if ifaIndex mem nlh = idx then 1 else found
  else if nlmsgType mem nlh = rtmNewlink then
    if ifiIndex mem nlh = idx then 1 else found
  else found

def changeLoop (mem : Memory) (idx : BitVec 32) : Nat → Nat → Int → Int → Option Int
  | 0, _, _, _ => none
  | fuel + 1, nlh, len, found =>
    if Ok nlmsghdr mem nlh len then
      let next := changeLoop mem idx fuel (nlh + align (nlmsgLen mem nlh)) (len - align (nlmsgLen mem nlh))
      if nlmsgType mem nlh = nlmsgDone then some found
      else if nlmsgType mem nlh = nlmsgError then next found
      else if ¬ Ok nlmsghdr mem nlh len then next found
      else next (handleMessage mem idx nlh found)
    else some found

def ipChanged (fuel : Nat) (buffer : Memory) (idx : BitVec 32) : Option (List Byte) → Option Int
  | none => some (-1)
  | some datagram =>
    let len : Int := min datagram.length bufferLen
    if len ≤ 0 then some (-1) else changeLoop (recv buffer datagram) idx fuel 0 len 0

/-- The other messages of the groups that the socket joins: addresses and links that go. -/
def rtmDeladdr : BitVec 16 := 21

def rtmDellink : BitVec 16 := 17

def Announces (idx : BitVec 32) (m : List Byte) : Prop :=
  (typeOf m = rtmNewaddr ∨ typeOf m = rtmDeladdr) ∧ ifaIndex (ofList m) 0 = idx ∨
    (typeOf m = rtmNewlink ∨ typeOf m = rtmDellink) ∧ ifiIndex (ofList m) 0 = idx

def AnnouncesNew (idx : BitVec 32) (m : List Byte) : Prop :=
  typeOf m = rtmNewaddr ∧ ifaIndex (ofList m) 0 = idx ∨ typeOf m = rtmNewlink ∧ ifiIndex (ofList m) 0 = idx

instance (idx : BitVec 32) (m : List Byte) : Decidable (Announces idx m) :=
  inferInstanceAs (Decidable (_ ∧ _ ∨ _ ∧ _))

instance (idx : BitVec 32) (m : List Byte) : Decidable (AnnouncesNew idx m) :=
  inferInstanceAs (Decidable (_ ∧ _ ∨ _ ∧ _))

def beforeDone (ms : List (List Byte)) : List (List Byte) := ms.takeWhile (fun m => typeOf m ≠ nlmsgDone)

def HasBody (m : List Byte) : Prop :=
  (typeOf m = rtmNewaddr ∨ typeOf m = rtmDeladdr → 24 ≤ m.length) ∧
    (typeOf m = rtmNewlink ∨ typeOf m = rtmDellink → 32 ≤ m.length)

instance (m : List Byte) : Decidable (HasBody m) := inferInstanceAs (Decidable (_ ∧ _))

/-- A datagram of well-formed messages. -/
structure IsDatagram (ms : List (List Byte)) (datagram : List Byte) : Prop where
  laid : Laid nlmsghdr ms datagram
  nonempty : datagram ≠ []
  body : ∀ m ∈ ms, HasBody m

def ReportsChanges (buffer : Memory) (idx : BitVec 32) (ms : List (List Byte))
    (datagram : List Byte) : Prop :=
  ∀ fuel, datagram.length < fuel → ipChanged fuel buffer idx (some datagram) =
    some (if ∃ m ∈ beforeDone ms, Announces idx m then 1 else 0)

section Loop

variable (mem : Memory) (idx : BitVec 32)

def FoundAt (nlh : Nat) : Prop :=
  nlmsgType mem nlh = rtmNewaddr ∧ ifaIndex mem nlh = idx ∨
    nlmsgType mem nlh = rtmNewlink ∧ ifiIndex mem nlh = idx

instance (nlh : Nat) : Decidable (FoundAt mem idx nlh) := inferInstanceAs (Decidable (_ ∧ _ ∨ _ ∧ _))

variable {mem idx} {nlh : Nat} {len found : Int}

theorem handleMessage_eq (mem : Memory) (idx : BitVec 32) (nlh : Nat) (found : Int) :
    handleMessage mem idx nlh found = if FoundAt mem idx nlh then 1 else found := by
  have hne : rtmNewaddr ≠ rtmNewlink := by decide
  rw [handleMessage]
  by_cases haddr : nlmsgType mem nlh = rtmNewaddr
  · simp only [FoundAt, haddr, hne, if_true, true_and, false_and, or_false]
  · by_cases hlink : nlmsgType mem nlh = rtmNewlink
    · simp only [FoundAt, hlink, hne.symm, if_true, if_false, true_and, false_and, false_or]
    · simp only [FoundAt, haddr, hlink, if_false, false_and, or_self]

theorem not_foundAt_of_error (h : nlmsgType mem nlh = nlmsgError) : ¬ FoundAt mem idx nlh := by
  rw [FoundAt, h]
  simp [nlmsgError, rtmNewaddr, rtmNewlink]

theorem changeLoop_of_ok (fuel : Nat) (h : Ok nlmsghdr mem nlh len) (found : Int) :
    changeLoop mem idx (fuel + 1) nlh len found =
      if nlmsgType mem nlh = nlmsgDone then some found
      else changeLoop mem idx fuel (nlh + align (nlmsgLen mem nlh)) (len - align (nlmsgLen mem nlh))
        (if FoundAt mem idx nlh then 1 else found) := by
  rw [changeLoop, if_pos h]
  dsimp only
  refine if_congr Iff.rfl rfl ?_
  split
  · rename_i herror
    rw [if_neg (not_foundAt_of_error herror)]
  · rw [handleMessage_eq]

theorem changeLoop_eq {fuel : Nat} (hfuel : len.toNat < fuel) (found : Int) :
    changeLoop mem idx fuel nlh len found = some
      (if ∃ p ∈ (records nlmsghdr mem nlh len).takeWhile (fun p => nlmsgType mem p ≠ nlmsgDone),
        FoundAt mem idx p then 1 else found) := by
  induction fuel generalizing nlh len found with
  | zero => exact absurd hfuel (Nat.not_lt_zero _)
  | succ fuel ih =>
    by_cases hok : Ok nlmsghdr mem nlh len
    · have hleft : (len - align (nlmsgLen mem nlh)).toNat < fuel :=
        hok.lt.trans_le (Nat.le_of_lt_succ hfuel)
      rw [changeLoop_of_ok fuel hok, records_of_ok hok]
      by_cases hdone : nlmsgType mem nlh = nlmsgDone
      · rw [if_pos hdone, List.takeWhile_cons_of_neg (by simpa using hdone), if_neg (by simp)]
      · rw [if_neg hdone, List.takeWhile_cons_of_pos (by simpa using hdone), ih hleft]
        refine congrArg some ?_
        by_cases hfound : FoundAt mem idx nlh
        · rw [if_pos hfound, ite_self, if_pos (List.exists_mem_cons_of _ hfound)]
        · rw [if_neg hfound]
          refine if_congr ?_ rfl rfl
          rw [List.exists_mem_cons_iff, or_iff_right hfound]
          rfl
    · rw [changeLoop, if_neg hok, records_of_not_ok hok, if_neg (by simp)]

theorem foundAt_iff (hhdr : nlmsghdr.hdr ≤ nlmsgLen mem nlh) (hbody : HasBody (record nlmsghdr mem nlh)) :
    FoundAt mem idx nlh ↔ AnnouncesNew idx (record nlmsghdr mem nlh) := by
  have hlength : (record nlmsghdr mem nlh).length = nlmsgLen mem nlh := length_slice
  rw [HasBody, hlength] at hbody
  rw [FoundAt, AnnouncesNew, nlmsgType_eq hhdr]
  refine or_congr (and_congr_right fun htype => ?_) (and_congr_right fun htype => ?_)
  · have hlong := hbody.1 (.inl htype)
    rw [ifaIndex, ifaIndex, nlmsgData, nlmsgData, word32_record (by omega), Nat.add_assoc]
  · have hlong := hbody.2 (.inl htype)
    rw [ifiIndex, ifiIndex, nlmsgData, nlmsgData, word32_record (by omega), Nat.add_assoc]

theorem exists_foundAt_iff {places : List Nat} (hhdr : ∀ p ∈ places, nlmsghdr.hdr ≤ nlmsgLen mem p)
    (hbody : ∀ m ∈ places.map (record nlmsghdr mem), HasBody m) :
    (∃ p ∈ places.takeWhile (fun p => nlmsgType mem p ≠ nlmsgDone), FoundAt mem idx p) ↔
      ∃ m ∈ beforeDone (places.map (record nlmsghdr mem)), AnnouncesNew idx m := by
  rw [beforeDone]
  induction places with
  | nil => simp
  | cons p places ih =>
    rw [List.forall_mem_cons] at hhdr
    rw [List.map_cons, List.forall_mem_cons] at hbody
    rw [List.map_cons, List.takeWhile_cons, List.takeWhile_cons, ← nlmsgType_eq hhdr.1]
    split
    · rw [List.exists_mem_cons_iff, List.exists_mem_cons_iff, foundAt_iff hhdr.1 hbody.1,
        ih hhdr.2 hbody.2]
    · simp

end Loop

section Datagram

variable {buffer : Memory} {idx : BitVec 32} {ms : List (List Byte)} {datagram : List Byte}

/-- The messages that are whole in the buffer are looked at. -/
theorem ipChanged_eq (h : IsDatagram ms datagram) (buffer : Memory) (idx : BitVec 32) {fuel : Nat}
    (hfuel : datagram.length < fuel) :
    ipChanged fuel buffer idx (some datagram) =
      some (if ∃ m ∈ beforeDone (whole bufferLen ms), AnnouncesNew idx m then 1 else 0) := by
  have hpos : 0 < datagram.length := List.length_pos_of_ne_nil h.nonempty
  have hlen : 0 < bufferLen := by decide
  have hcontents := contents_of_laid_take h.laid (holds_filled bufferLen buffer datagram)
  rw [Nat.min_comm] at hcontents
  have hbody : ∀ m ∈ whole bufferLen ms, HasBody m := fun m hm =>
    h.body m ((whole_isPrefix _ _).subset hm)
  rw [ipChanged, if_neg (by omega), ← Nat.cast_min, changeLoop_eq (by omega)]
  refine congrArg some (if_congr ?_ rfl rfl)
  rw [exists_foundAt_iff (fun p hp => hdr_le_of_mem hp), ← hcontents]
  · rfl
  · rwa [← hcontents] at hbody

theorem mem_beforeDone_whole {m : List Byte} {n : Nat} (h : m ∈ beforeDone (whole n ms)) :
    m ∈ beforeDone ms := by
  obtain ⟨rest, hrest⟩ := whole_isPrefix n ms
  rw [beforeDone, ← hrest, List.takeWhile_append]
  split
  · exact List.mem_append_left _ (List.takeWhile_subset _ h)
  · exact h

theorem AnnouncesNew.announces {m : List Byte} (h : AnnouncesNew idx m) : Announces idx m := by
  rcases h with ⟨htype, hidx⟩ | ⟨htype, hidx⟩
  · exact .inl ⟨.inl htype, hidx⟩
  · exact .inr ⟨.inl htype, hidx⟩

/-- Changes are reported just if one of them is new and stands whole in the buffer. -/
theorem ipChanged_reportsChanges_iff (buffer : Memory) (idx : BitVec 32) (h : IsDatagram ms datagram) :
    ReportsChanges buffer idx ms datagram ↔
      ((∃ m ∈ beforeDone ms, Announces idx m) →
        ∃ m ∈ beforeDone (whole bufferLen ms), AnnouncesNew idx m) := by
  have hback : (∃ m ∈ beforeDone (whole bufferLen ms), AnnouncesNew idx m) →
      ∃ m ∈ beforeDone ms, Announces idx m := fun ⟨m, hm, hnew⟩ =>
    ⟨m, mem_beforeDone_whole hm, hnew.announces⟩
  rw [ReportsChanges]
  constructor
  · intro hreports hannounced
    have hresult := hreports (datagram.length + 1) (Nat.lt_succ_self _)
    rw [ipChanged_eq h buffer idx (Nat.lt_succ_self _), if_pos hannounced] at hresult
    by_contra hnot
    rw [if_neg hnot] at hresult
    cases hresult
  · intro himp fuel hfuel
    rw [ipChanged_eq h buffer idx hfuel]
    exact congrArg some (if_congr ⟨hback, himp⟩ rfl rfl)

end Datagram

def errorMessage : List Byte := nlmsgBytes nlmsgError 0 0 0 (List.replicate 20 0)

def addrMessage (type : BitVec 16) (index : BitVec 32) : List Byte :=
  nlmsgBytes type 0 0 0 ([2, 24, 0x80, 0] ++ bytes32 index)

theorem ipChanged_reportsChanges_iff_newaddr :
    ReportsChanges (fun _ => 0) 2 [errorMessage, addrMessage rtmNewaddr 2]
        (errorMessage ++ addrMessage rtmNewaddr 2) ↔
      ((∃ m ∈ beforeDone [errorMessage, addrMessage rtmNewaddr 2], Announces 2 m) →
        ∃ m ∈ beforeDone (whole bufferLen [errorMessage, addrMessage rtmNewaddr 2]), AnnouncesNew 2 m) :=
  ipChanged_reportsChanges_iff _ 2
    ⟨.aligned (isRecord_nlmsgBytes (by decide)) (by decide) (.last (isRecord_nlmsgBytes (by decide))),
      by decide, by decide⟩

/-- The removal of an address is not reported. -/
theorem not_reportsChanges_deladdr :
    IsDatagram [addrMessage rtmDeladdr 2] (addrMessage rtmDeladdr 2) ∧
      (∃ m ∈ beforeDone [addrMessage rtmDeladdr 2], Announces 2 m) ∧
      ipChanged 25 (fun _ => 0) 2 (some (addrMessage rtmDeladdr 2)) = some 0 ∧
      ¬ ReportsChanges (fun _ => 0) 2 [addrMessage rtmDeladdr 2] (addrMessage rtmDeladdr 2) := by
  have hdatagram : IsDatagram [addrMessage rtmDeladdr 2] (addrMessage rtmDeladdr 2) :=
    ⟨.last (isRecord_nlmsgBytes (by decide)), by decide, by decide⟩
  have hannounced : ∃ m ∈ beforeDone [addrMessage rtmDeladdr 2], Announces 2 m := by decide
  have hzero : ipChanged 25 (fun _ => 0) 2 (some (addrMessage rtmDeladdr 2)) = some 0 := by
    rw [ipChanged_eq hdatagram _ _ (by decide), if_neg (by decide)]
  refine ⟨hdatagram, hannounced, hzero, fun hreports => ?_⟩
  have hone := hreports 25 (by decide)
  rw [hzero, if_pos hannounced] at hone
  cases hone

end RoblSampleCodes.IpChanged
