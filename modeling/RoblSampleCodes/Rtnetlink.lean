import RoblSampleCodes.AlignedRecords

namespace RoblSampleCodes.Rtnetlink

open ByteMemory AlignedRecords

def nlmsghdr : Format where
  hdr := 16
  hdr_pos := by decide
  len mem i := (word32 mem i).toNat
  len_congr h := congrArg BitVec.toNat (word32_congr fun k hk => h k (by omega))

def rtattr : Format where
  hdr := 4
  hdr_pos := by decide
  len mem i := (word16 mem i).toNat
  len_congr h := congrArg BitVec.toNat (word16_congr fun k hk => h k (by omega))

def nlmsgLen (mem : Memory) (nlh : Nat) : Nat := nlmsghdr.len mem nlh

def nlmsgType (mem : Memory) (nlh : Nat) : BitVec 16 := word16 mem (nlh + 4)

def nlmsgData (nlh : Nat) : Nat := nlh + 16

def rtaType (mem : Memory) (rta : Nat) : Nat := (word16 mem (rta + 2)).toNat

def rtaData (rta : Nat) : Nat := rta + 4

def rtaPayload (mem : Memory) (rta : Nat) : Nat := rtattr.len mem rta - 4

def nlmsgError : BitVec 16 := 2

def nlmsgDone : BitVec 16 := 3

def rtmNewlink : BitVec 16 := 16

def rtmNewaddr : BitVec 16 := 20

def parseRtattr (mem : Memory) (max : Nat) (rta : Nat) (len : Int) : Nat → Option Nat :=
  (records rtattr mem rta len).foldl
    (fun tb rta => if rtaType mem rta ≤ max then Function.update tb (rtaType mem rta) (some rta) else tb)
    fun _ => none

def bufferSize : Nat := 8192

/-- The buffer after a call of `recvmsg`, which leaves the rest of it as it was. -/
def recvmsg (buffer : Memory) (datagram : List Byte) : Memory :=
  fun i => if i < min datagram.length bufferSize then ofList datagram i else buffer i

def messages (buffer : Memory) (datagram : List Byte) : List Nat :=
  records nlmsghdr (recvmsg buffer datagram) 0 (min datagram.length bufferSize : Nat)

inductive Outcome
  | waiting
  | failed
  | done
  deriving DecidableEq

section Dump

variable {σ : Type} (handle : Memory → Nat → σ → Option σ)

def messageLoop (mem : Memory) : List Nat → σ → Option (Outcome × σ)
  | [], s => some (.waiting, s)
  | nlh :: rest, s =>
    if nlmsgType mem nlh = nlmsgDone then some (.done, s)
    else if nlmsgType mem nlh = nlmsgError then some (.failed, s)
    else (handle mem nlh s).bind fun s => messageLoop mem rest s

/-- The loop over the calls of `recvmsg`, of which some may fail. It waits at the end of what
was sent, and leaves what comes after the datagram that it ends with. -/
def dump : Memory → List (Option (List Byte)) → σ → Option (Outcome × σ × List (Option (List Byte)))
  | _, [], s => some (.waiting, s, [])
  | _, none :: rest, s => some (.failed, s, rest)
  | buffer, some datagram :: rest, s =>
    (messageLoop handle (recvmsg buffer datagram) (messages buffer datagram) s).bind fun r =>
      if r.1 = .waiting then dump (recvmsg buffer datagram) rest r.2 else some (r.1, r.2, rest)

end Dump

def scan (mem : Memory) : List Nat → Outcome × List Nat
  | [] => (.waiting, [])
  | nlh :: rest =>
    if nlmsgType mem nlh = nlmsgDone then (.done, [])
    else if nlmsgType mem nlh = nlmsgError then (.failed, [])
    else ((scan mem rest).1, nlh :: (scan mem rest).2)

def reply : Memory → List (Option (List Byte)) → Outcome × List (Memory × Nat)
  | _, [] => (.waiting, [])
  | _, none :: _ => (.failed, [])
  | buffer, some datagram :: rest =>
    let found := scan (recvmsg buffer datagram) (messages buffer datagram)
    let later := if found.1 = .waiting then reply (recvmsg buffer datagram) rest else (found.1, [])
    (later.1, found.2.map (fun nlh => (recvmsg buffer datagram, nlh)) ++ later.2)

def unread : Memory → List (Option (List Byte)) → List (Option (List Byte))
  | _, [] => []
  | _, none :: rest => rest
  | buffer, some datagram :: rest =>
    if (scan (recvmsg buffer datagram) (messages buffer datagram)).1 = .waiting then
      unread (recvmsg buffer datagram) rest
    else rest

theorem parseRtattr_eq {max t : Nat} (ht : t ≤ max) (mem : Memory) (rta : Nat) (len : Int) :
    parseRtattr mem max rta len t =
      ((records rtattr mem rta len).filter (fun rta => rtaType mem rta = t)).getLast? := by
  rw [parseRtattr]
  induction records rtattr mem rta len using List.reverseRecOn with
  | nil => rfl
  | append_singleton l rta ih =>
    rw [List.foldl_append, List.foldl_cons, List.foldl_nil, List.filter_append]
    by_cases htype : rtaType mem rta = t
    · rw [if_pos (htype ▸ ht), htype, Function.update_self, List.filter_cons_of_pos (by simp [htype]),
        List.filter_nil, List.getLast?_concat]
    · rw [List.filter_cons_of_neg (by simp [htype]), List.filter_nil, List.append_nil, ← ih]
      split
      · exact Function.update_of_ne (Ne.symm htype) _ _
      · rfl

section Dump

variable {σ : Type} {handle : Memory → Nat → σ → Option σ}

theorem messageLoop_eq (mem : Memory) (places : List Nat) (s : σ) :
    messageLoop handle mem places s =
      ((scan mem places).2.foldlM (fun s nlh => handle mem nlh s) s).map
        fun s => ((scan mem places).1, s) := by
  induction places generalizing s with
  | nil => rfl
  | cons nlh rest ih =>
    rw [messageLoop, scan]
    split
    · rfl
    · split
      · rfl
      · rw [List.foldlM_cons]
        cases handle mem nlh s with
        | none => rfl
        | some s => exact ih s

theorem dump_eq (buffer : Memory) (recvs : List (Option (List Byte))) (s : σ) :
    dump handle buffer recvs s =
      ((reply buffer recvs).2.foldlM (fun s m => handle m.1 m.2 s) s).map
        fun s => ((reply buffer recvs).1, s, unread buffer recvs) := by
  induction recvs generalizing buffer s with
  | nil => rfl
  | cons recv rest ih =>
    cases recv with
    | none => rfl
    | some datagram =>
      rw [dump, messageLoop_eq, reply, unread]
      simp only [List.foldlM_append, List.foldlM_map]
      cases hfold : (scan (recvmsg buffer datagram) (messages buffer datagram)).2.foldlM
          (fun s nlh => handle (recvmsg buffer datagram) nlh s) s with
      | none => rfl
      | some s =>
        simp only [Option.map_some, Option.bind_some, Option.bind_eq_bind]
        split
        · exact ih _ s
        · rfl

end Dump

def rtattrBytes (type : BitVec 16) (value : List Byte) : List Byte :=
  bytes16 (BitVec.ofNat 16 (4 + value.length)) ++ bytes16 type ++ value

def nlmsgBytes (type flags : BitVec 16) (seq pid : BitVec 32) (body : List Byte) : List Byte :=
  bytes32 (BitVec.ofNat 32 (16 + body.length)) ++ bytes16 type ++ bytes16 flags ++ bytes32 seq ++
    bytes32 pid ++ body

theorem isRecord_rtattrBytes {type : BitVec 16} {value : List Byte} (h : 4 + value.length < 2 ^ 16) :
    IsRecord rtattr (rtattrBytes type value) := by
  have hlen : (rtattrBytes type value).length = 4 + value.length := by
    simp [rtattrBytes]
    omega
  have hholds := holds_ofList (rtattrBytes type value)
  rw [rtattrBytes, List.append_assoc] at hholds
  rw [IsRecord, hlen, rtattrBytes, List.append_assoc]
  refine ⟨by simp [rtattr], ?_⟩
  simp only [rtattr, word16_of_holds (holds_append.mp hholds).1, BitVec.toNat_ofNat]
  exact Nat.mod_eq_of_lt h

theorem isRecord_nlmsgBytes {type flags : BitVec 16} {seq pid : BitVec 32} {body : List Byte}
    (h : 16 + body.length < 2 ^ 32) : IsRecord nlmsghdr (nlmsgBytes type flags seq pid body) := by
  have hlen : (nlmsgBytes type flags seq pid body).length = 16 + body.length := by
    simp [nlmsgBytes]
    omega
  have hholds := holds_ofList (nlmsgBytes type flags seq pid body)
  simp only [nlmsgBytes, List.append_assoc] at hholds
  rw [IsRecord, hlen]
  simp only [nlmsgBytes, List.append_assoc]
  refine ⟨by simp [nlmsghdr], ?_⟩
  simp only [nlmsghdr, word32_of_holds (holds_append.mp hholds).1, BitVec.toNat_ofNat]
  exact Nat.mod_eq_of_lt h

end RoblSampleCodes.Rtnetlink
