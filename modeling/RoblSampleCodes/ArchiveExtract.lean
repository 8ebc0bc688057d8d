import RoblSampleCodes.ByteMemory

namespace RoblSampleCodes.ArchiveExtract

open ByteMemory

inductive Code
  | ok
  | eof
  | warn
  | failed
  | fatal
  deriving DecidableEq

structure Block where
  size : BitVec 64
  written : Code

structure Entry where
  pathname : List Byte
  writeHeader : Code
  blocks : List Block
  lastRead : Code
  lastRead_ne : lastRead ≠ .ok
  finish : Code

/-- The results of the calls in both passes. In each pass the last header is the first one that is
not read with `ok`. The library has an error string for each of its failures, never a null pointer. -/
structure Results where
  sizeOpen : Code
  sizes : List (BitVec 64)
  opened : Code
  entries : List Entry
  lastHeader : Code
  lastHeader_ne : lastHeader ≠ .ok
  errorString : Code → List Byte

inductive Line
  | extracting (pathname : List Byte)
  | progress (extractedSize totalSize : BitVec 64)
  | blank

structure Output where
  stdout : List Line
  stderr : List (List Byte)

def Output.print (out : Output) (line : Line) : Output := { out with stdout := out.stdout ++ [line] }

def Output.report (out : Output) (message : List Byte) : Output :=
  { out with stderr := out.stderr ++ [message] }

def dataLoop (errorString : Code → List Byte) (totalSize : BitVec 64) (lastRead : Code) :
    List Block → BitVec 64 → Output → Except Output (BitVec 64 × Output)
  | [], extractedSize, out =>
    if lastRead = .eof then .ok (extractedSize, out)
    else .error (out.report (ascii "Error reading data: " ++ errorString lastRead))
  | block :: blocks, extractedSize, out =>
    if block.written = .ok then
      dataLoop errorString totalSize lastRead blocks (extractedSize + block.size)
        (out.print (.progress (extractedSize + block.size) totalSize))
    else .error (out.report (ascii "Error writing data: " ++ errorString block.written))

/-- The loop over the entries. It does not look at the result of `archive_write_finish_entry`. -/
def entryLoop (errorString : Code → List Byte) (totalSize : BitVec 64) :
    List Entry → BitVec 64 → Output → Except Output Output
  | [], _, out => .ok (out.print .blank)
  | e :: es, extractedSize, out =>
    if e.writeHeader = .ok then
      (dataLoop errorString totalSize e.lastRead e.blocks extractedSize
        (out.print (.extracting e.pathname))).bind fun r => entryLoop errorString totalSize es r.1 r.2
    else
      entryLoop errorString totalSize es extractedSize
        ((out.print (.extracting e.pathname)).report (errorString e.writeHeader))

def returned : Except Output Output → Output
  | .error out => out
  | .ok out => out

def extract (r : Results) : Output :=
  if r.sizeOpen = .ok then
    if r.opened = .ok then returned (entryLoop r.errorString r.sizes.sum r.entries 0 ⟨[], []⟩)
    else ⟨[], [ascii "Failed to open archive: " ++ r.errorString r.opened]⟩
  else ⟨[], [ascii "Failed to open archive: " ++ r.errorString r.sizeOpen]⟩

structure Written (e : Entry) : Prop where
  header : e.writeHeader = .ok
  blocks : ∀ block ∈ e.blocks, block.written = .ok
  lastRead : e.lastRead = .eof

structure Whole (r : Results) : Prop where
  lastHeader : r.lastHeader = .eof
  written : ∀ e ∈ r.entries, Written e
  finished : ∀ e ∈ r.entries, e.finish = .ok

def ReportsPartial (r : Results) : Prop := (extract r).stderr = [] → Whole r

theorem stderr_report_ne_nil (out : Output) (message : List Byte) : (out.report message).stderr ≠ [] := by
  simp [Output.report]

theorem dataLoop_cases (errorString : Code → List Byte) (totalSize : BitVec 64) (lastRead : Code)
    (blocks : List Block) (extractedSize : BitVec 64) (out : Output) :
    ((∀ block ∈ blocks, block.written = .ok) ∧ lastRead = .eof ∧
      ∃ size out', dataLoop errorString totalSize lastRead blocks extractedSize out = .ok (size, out') ∧
        out'.stderr = out.stderr) ∨
    (¬ ((∀ block ∈ blocks, block.written = .ok) ∧ lastRead = .eof) ∧
      ∃ out', dataLoop errorString totalSize lastRead blocks extractedSize out = .error out' ∧
        out'.stderr ≠ []) := by
  induction blocks generalizing extractedSize out with
  | nil =>
    by_cases hlast : lastRead = .eof
    · exact .inl ⟨by simp, hlast, extractedSize, out, if_pos hlast, rfl⟩
    · exact .inr ⟨fun h => hlast h.2, _, if_neg hlast, stderr_report_ne_nil _ _⟩
  | cons block blocks ih =>
    rw [dataLoop, List.forall_mem_cons]
    by_cases hwritten : block.written = .ok
    · rw [if_pos hwritten, and_iff_right hwritten]
      exact ih ..
    · rw [if_neg hwritten]
      exact .inr ⟨fun h => hwritten h.1.1, _, rfl, stderr_report_ne_nil _ _⟩

theorem written_iff {e : Entry} : Written e ↔
    e.writeHeader = .ok ∧ (∀ block ∈ e.blocks, block.written = .ok) ∧ e.lastRead = .eof :=
  ⟨fun h => ⟨h.header, h.blocks, h.lastRead⟩, fun h => ⟨h.1, h.2.1, h.2.2⟩⟩

theorem stderr_entryLoop (errorString : Code → List Byte) (totalSize : BitVec 64) (es : List Entry)
    (extractedSize : BitVec 64) (out : Output) :
    (returned (entryLoop errorString totalSize es extractedSize out)).stderr = [] ↔
      out.stderr = [] ∧ ∀ e ∈ es, Written e := by
  induction es generalizing extractedSize out with
  | nil => simp [entryLoop, returned, Output.print]
  | cons e es ih =>
    rw [entryLoop, List.forall_mem_cons, written_iff]
    by_cases hheader : e.writeHeader = .ok
    · rw [if_pos hheader, and_iff_right hheader]
      obtain ⟨hblocks, hlast, size, out', heq, hstderr⟩ | ⟨hnot, out', heq, hstderr⟩ :=
        dataLoop_cases errorString totalSize e.lastRead e.blocks extractedSize
          (out.print (.extracting e.pathname))
      · have hrest := ih size out'
        rw [hstderr] at hrest
        rw [heq]
        exact hrest.trans (and_congr_right fun _ => (and_iff_right ⟨hblocks, hlast⟩).symm)
      · rw [heq]
        exact iff_of_false hstderr fun h => hnot h.2.1
    · rw [if_neg hheader, ih]
      exact iff_of_false (fun h => stderr_report_ne_nil _ _ h.1) fun h => hheader h.2.1.1

theorem stderr_extract (r : Results) :
    (extract r).stderr = [] ↔ r.sizeOpen = .ok ∧ r.opened = .ok ∧ ∀ e ∈ r.entries, Written e := by
  rw [extract]
  split
  · rename_i hsize
    split
    · rename_i hopened
      rw [stderr_entryLoop, and_iff_right rfl, and_iff_right hsize, and_iff_right hopened]
    · rename_i hopened
      exact iff_of_false (List.cons_ne_nil _ _) fun h => hopened h.2.1
  · rename_i hsize
    exact iff_of_false (List.cons_ne_nil _ _) fun h => hsize h.1

def Fails (r : Results) : Prop := r.sizeOpen ≠ .ok ∨ r.opened ≠ .ok ∨ ∃ e ∈ r.entries, ¬ Written e

/-- A partial extraction is reported just if the headers end with the archive and all entries are
finished, or another call fails. -/
theorem reportsPartial_iff (r : Results) : ReportsPartial r ↔
    Fails r ∨ r.lastHeader = .eof ∧ ∀ e ∈ r.entries, e.finish = .ok := by
  rw [ReportsPartial, stderr_extract]
  constructor
  · intro h
    by_cases hfails : Fails r
    · exact .inl hfails
    · simp only [Fails, ne_eq, not_or, not_exists, not_and, not_not] at hfails
      exact .inr ⟨(h hfails).lastHeader, (h hfails).finished⟩
  · rintro (hfails | ⟨hlast, hfinish⟩) ⟨hsize, hopened, hwritten⟩
    · rcases hfails with hne | hne | ⟨e, he, hnot⟩
      · exact absurd hsize hne
      · exact absurd hopened hne
      · exact absurd (hwritten e he) hnot
    · exact ⟨hlast, hwritten, hfinish⟩

def broken : Results := ⟨.ok, [], .ok, [], .fatal, by decide, fun _ => []⟩

/-- Nothing is extracted of it, and there is no message. -/
theorem not_reportsPartial : ¬ ReportsPartial broken := by
  intro h
  have hwhole := h ((stderr_extract broken).mpr ⟨rfl, rfl, by simp [broken]⟩)
  exact absurd hwhole.lastHeader (by decide)

end RoblSampleCodes.ArchiveExtract
