import RoblSampleCodes.SemaphoreLockInvariant

namespace RoblSampleCodes.SemaphoreLockOverflow

open TransitionSystem ThreadCount ThreadProgram ProcessThreads SemaphoreLock SemaphoreLockInvariant

def crowd (N : Nat) (_ : Fin N) : Role := .reader 0

def crowdState (N : Nat) (m : SharedMemory) (f : Nat → ReaderPc) : LockState (Fin N) where
  shared := m
  owner := nofun
  pc := fun i => .reader 0 (f i)

variable {turnstile : Bool} {N K : Nat}

theorem crowdState_congr {m : SharedMemory} {f g : Nat → ReaderPc} (h : ∀ i < N, f i = g i) :
    crowdState N m f = crowdState N m g := by
  have hp : (crowdState N m f).pc = (crowdState N m g).pc :=
    funext (fun i => congrArg (ThreadPc.reader 0) (h i i.isLt))
  simp only [crowdState] at hp ⊢
  rw [hp]

theorem crowd_solo {m m' : SharedMemory} {f : Nat → ReaderPc} {k n : Nat} {p : ReaderPc} (hk : k < N)
    (hs : Reachable (system turnstile (crowd N)) (crowdState N m f))
    (h : (program turnstile).solo () n m (.reader 0 (f k)) = some (m', .reader 0 p)) :
    Reachable (system turnstile (crowd N)) (crowdState N m' (Function.update f k p)) := by
  have hr := solo_reachable (t := ⟨k, hk⟩) hs h
  have hp : Function.update (crowdState N m f).pc ⟨k, hk⟩ (.reader 0 p) =
      (crowdState N m' (Function.update f k p)).pc := by
    funext i
    by_cases hi : i = ⟨k, hk⟩
    · subst hi
      simp [crowdState]
    · have hik : i.val ≠ k := fun he => hi (Fin.ext he)
      simp [crowdState, hi, hik]
  rw [hp] at hr
  exact hr

/-- The readers go from place `p` to place `q` one after the other. -/
theorem crowd_march {m : Nat → SharedMemory} {f : Nat → ReaderPc} {p q : ReaderPc} (hK : K ≤ N)
    (hf : ∀ k < K, f k = p)
    (hsolo : ∀ k < K, ∃ n, (program turnstile).solo () n (m k) (.reader 0 p) =
      some (m (k + 1), .reader 0 q))
    (hs : Reachable (system turnstile (crowd N)) (crowdState N (m 0) f)) :
    Reachable (system turnstile (crowd N)) (crowdState N (m K) (fun i => if i < K then q else f i)) := by
  induction K with
  | zero => exact hs
  | succ K ih =>
    obtain ⟨n, hn⟩ := hsolo K (Nat.lt_succ_self K)
    have hr := ih (Nat.le_of_succ_le hK) (fun k hk => hf k (Nat.lt_succ_of_lt hk))
      (fun k hk => hsolo k (Nat.lt_succ_of_lt hk))
    rw [← hf K (Nat.lt_succ_self K)] at hn
    have hr := crowd_solo (k := K) hK hr (by simpa using hn)
    have hp : Function.update (fun i => if i < K then q else f i) K q =
        fun i => if i < K + 1 then q else f i := by
      funext i
      by_cases hi : i = K
      · simp [hi]
      · have hik : i < K + 1 ↔ i < K := by omega
        simp [hi, hik]
    rwa [hp] at hr

def crowdShared (k : Nat) : SharedMemory where
  increment := 0
  in_ := 1
  mx := 1
  wrt := if k = 0 then 1 else 0
  readCount := BitVec.ofNat 32 k
  isRunning := fun _ => true
  stores := 0

theorem enters (turnstile : Bool) {k : Nat} (hk : k < 2 ^ 32) :
    ∃ n, (program turnstile).solo () n (crowdShared k) (.reader 0 .loop) =
      some (crowdShared (k + 1), .reader 0 .critical) := by
  by_cases h0 : k = 0
  · subst h0
    cases turnstile
    · exact ⟨5, rfl⟩
    · exact ⟨7, rfl⟩
  · have hz : ¬ BitVec.ofNat 32 k = 0#32 := by
      intro h
      have hn := congrArg BitVec.toNat h
      rw [BitVec.toNat_ofNat, Nat.mod_eq_of_lt hk] at hn
      exact h0 hn
    have hs : BitVec.ofNat 32 k + 1#32 = BitVec.ofNat 32 (k + 1) := (BitVec.ofNat_add ..).symm
    cases turnstile
    · exact ⟨4, by simp [Program.solo, Code.program, Code.next, code, reader, crowdShared, h0, hz, hs]⟩
    · exact ⟨6, by simp [Program.solo, Code.program, Code.next, code, reader, crowdShared, h0, hz, hs]⟩

/-- `K` readers can be between entry and exit at the same time, as long as the
count does not wrap to one. -/
theorem entered_reachable (turnstile : Bool) (hK : K ≤ N) (hw : K ≤ 2 ^ 32) :
    Reachable (system turnstile (crowd N))
      (crowdState N (crowdShared K) (fun i => if i < K then .critical else .loop)) :=
  crowd_march hK (fun _ _ => rfl) (fun _ hk => enters turnstile (Nat.lt_of_lt_of_le hk hw)) (.init rfl)

/-- One more reader finds the count at one, takes itself for the first and
waits with `mx` for `wrt`, which its own group owns. -/
def wrappedShared (turnstile : Bool) : SharedMemory :=
  { crowdShared (2 ^ 32) with in_ := if turnstile then 0 else 1, mx := 0, readCount := 1 }

def wrapped (turnstile : Bool) (p : ReaderPc) : LockState (Fin (2 ^ 32 + 1)) :=
  crowdState _ (wrappedShared turnstile) (fun i => if i < 2 ^ 32 then p else .waitWrt)

theorem wraps (turnstile : Bool) :
    ∃ n, (program turnstile).solo () n (crowdShared (2 ^ 32)) (.reader 0 .loop) =
      some (wrappedShared turnstile, .reader 0 .waitWrt) := by
  cases turnstile
  · exact ⟨3, by simp [Program.solo, Code.program, Code.next, code, reader, crowdShared, wrappedShared]⟩
  · exact ⟨4, by simp [Program.solo, Code.program, Code.next, code, reader, crowdShared, wrappedShared]⟩

theorem wrapped_reachable (turnstile : Bool) :
    Reachable (system turnstile (crowd (2 ^ 32 + 1))) (wrapped turnstile .critical) := by
  have hr := entered_reachable turnstile (K := 2 ^ 32) (N := 2 ^ 32 + 1) (by omega) (by omega)
  obtain ⟨n, hn⟩ := wraps turnstile
  have hr := crowd_solo (k := 2 ^ 32) (n := n) (by omega) hr (by rwa [if_neg (Nat.lt_irrefl _)])
  have hp : wrapped turnstile .critical = crowdState (2 ^ 32 + 1) (wrappedShared turnstile)
      (Function.update (fun i => if i < 2 ^ 32 then .critical else .loop) (2 ^ 32) .waitWrt) := by
    apply crowdState_congr
    intro i hi
    obtain hlt | rfl := Nat.lt_succ_iff_lt_or_eq.mp hi
    · rw [Function.update_of_ne (Nat.ne_of_lt hlt), if_pos hlt, if_pos hlt]
    · rw [Function.update_self, if_neg (Nat.lt_irrefl _)]
  rwa [hp]

theorem jammed_reachable (turnstile : Bool) :
    Reachable (system turnstile (crowd (2 ^ 32 + 1))) (wrapped turnstile .exitWaitMx) := by
  have hr := crowd_march (m := fun _ => wrappedShared turnstile) (p := .critical) (q := .exitWaitMx)
    (K := 2 ^ 32) (by omega) (fun k hk => if_pos hk) (fun k hk => ⟨1, rfl⟩) (wrapped_reachable turnstile)
  have hp : wrapped turnstile .exitWaitMx = crowdState (2 ^ 32 + 1) (wrappedShared turnstile)
      (fun i => if i < 2 ^ 32 then .exitWaitMx else if i < 2 ^ 32 then .critical else .waitWrt) := by
    apply crowdState_congr
    intro i _
    by_cases hi : i < 2 ^ 32
    · rw [if_pos hi, if_pos hi]
    · rw [if_neg hi, if_neg hi, if_neg hi]
  rwa [hp]

end RoblSampleCodes.SemaphoreLockOverflow
