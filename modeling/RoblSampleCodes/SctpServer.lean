import RoblSampleCodes.ByteMemory

namespace RoblSampleCodes.SctpServer

open ByteMemory

def bufferSize : ℕ := 1024

/-- The bytes that `sctp_recvmsg` receives on a connection. At most the last of them is NUL. -/
structure Message where
  bytes : List Byte
  ne_nil : bytes ≠ []
  length_le : bytes.length ≤ bufferSize
  notMem_dropLast : 0 ∉ bytes.dropLast

/-- The line that is printed of the buffer. It is undefined where the text does not end in it. -/
def line (buffer : Memory) : Option (List Byte) :=
  (readString buffer bufferSize 0).map fun text => ascii "Received data: " ++ text

/-- The buffer after a connection, on which `sctp_recvmsg` may also return nothing. -/
def received (buffer : Memory) (connection : Option Message) : Memory :=
  connection.elim buffer fun m => filled bufferSize buffer m.bytes

def serve (buffer : Memory) : List (Option Message) → List (Option (List Byte))
  | [] => []
  | none :: connections => serve buffer connections
  | some m :: connections =>
    line (received buffer (some m)) :: serve (received buffer (some m)) connections

def hello : List Byte := ascii "Hello, Server!"

/-- The client in C sends the text with its NUL. -/
def cClient : Message := ⟨hello ++ [0], by decide, by decide, by decide⟩

/-- The client in C++ sends `msg.size()` bytes. -/
def cppClient : Message := ⟨hello, by decide, by decide, by decide⟩

def Determines (m : Message) : Prop :=
  ∃ text, ∀ buffer connections, (serve buffer (connections ++ [some m])).getLast? = some (some text)

variable {m : Message} {buffer : Memory}

theorem serve_append (buffer : Memory) (connections : List (Option Message)) (m : Message) :
    serve buffer (connections ++ [some m]) =
      serve buffer connections ++ [line (received (connections.foldl received buffer) (some m))] := by
  induction connections generalizing buffer with
  | nil => rfl
  | cons connection connections ih =>
    cases connection with
    | none => exact ih buffer
    | some m' =>
      rw [List.cons_append, serve, serve, ih, List.cons_append]
      rfl

theorem determines_iff_line :
    Determines m ↔ ∃ text, ∀ buffer, line (received buffer (some m)) = some text := by
  constructor
  · rintro ⟨text, h⟩
    exact ⟨text, fun buffer => Option.some.inj (h buffer [])⟩
  · rintro ⟨text, h⟩
    refine ⟨text, fun buffer connections => ?_⟩
    rw [serve_append, List.getLast?_concat, h]

theorem holds_received (buffer : Memory) (m : Message) : Holds (received buffer (some m)) 0 m.bytes := by
  have hholds := holds_filled bufferSize buffer m.bytes
  rwa [List.take_of_length_le m.length_le] at hholds

/-- Without a NUL in the message, the text goes on through what the buffer had before. -/
theorem line_eq_none (h : 0 ∉ m.bytes) : line (received (fun _ => 1) (some m)) = none := by
  have hslice : 0 ∉ slice (received (fun _ => 1) (some m)) 0 (bufferSize - 0) := by
    rw [slice, List.mem_map]
    rintro ⟨k, -, hk⟩
    rw [Nat.zero_add, received, Option.elim_some, filled] at hk
    split at hk
    · rename_i hlt
      rw [ofList, List.getD_eq_getElem _ _ (hlt.trans_le (min_le_left _ _))] at hk
      exact h (hk ▸ List.getElem_mem _)
    · exact absurd hk (by decide)
  rw [line, readString, if_neg hslice]
  rfl

theorem not_determines (h : 0 ∉ m.bytes) : ¬ Determines m := by
  rw [determines_iff_line]
  rintro ⟨text, hline⟩
  cases (line_eq_none h).symm.trans (hline fun _ => 1)

theorem determines_of_eq {front : List Byte} (hbytes : m.bytes = front ++ [0]) (hfront : 0 ∉ front) :
    Determines m := by
  rw [determines_iff_line]
  refine ⟨ascii "Received data: " ++ front, fun buffer => ?_⟩
  have hholds := holds_received buffer m
  have hlen := m.length_le
  rw [hbytes] at hholds hlen
  rw [line, readString_of_holds hholds hfront (by rwa [Nat.zero_add])]
  rfl

/-- A message determines what is printed just if it ends with a NUL. -/
theorem determines_iff (m : Message) : Determines m ↔ m.bytes.getLast? = some 0 := by
  obtain ⟨front, c, hbytes⟩ := (List.eq_nil_or_concat' m.bytes).resolve_left m.ne_nil
  have hfront : 0 ∉ front := by
    have hnotMem := m.notMem_dropLast
    rwa [hbytes, List.dropLast_concat] at hnotMem
  rw [hbytes, List.getLast?_concat, Option.some.injEq]
  constructor
  · intro h
    by_contra hc
    apply not_determines _ h
    rw [hbytes, List.mem_append, List.mem_singleton, not_or]
    exact ⟨hfront, fun heq => hc heq.symm⟩
  · rintro rfl
    exact determines_of_eq hbytes hfront

example : Determines cClient := by
  apply determines_of_eq rfl
  decide

/-- What is printed of the text of the client in C++ depends on what the buffer had before. -/
theorem not_determines_cppClient : ¬ Determines cppClient := by
  apply not_determines
  decide

end RoblSampleCodes.SctpServer
