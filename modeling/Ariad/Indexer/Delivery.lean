import Mathlib.Data.List.Range
import Ariad.Indexer.Reorder

/-!
# The reorder buffer delivers every file exactly once

When the database refuses no statement, the files are dealt with in dispatch order, each of them
once, whatever the order of messages and deaths (`streamingDelivery`). A statement that fails in the
flush after another batch's end loses the file that was being written and everything behind it
(`flush_loses_files`).

* `Logged k` — what has been dealt with is exactly the files before the `k`-th of the current batch,
  and the tables show it.
* `BufferOk` — the batches in the buffer are those from the current one to the last dispatched one,
  and each holds what has arrived and was not written.
* `Keeps` — what a flush may do to the buffer, seen by a batch that is still running.
-/

namespace Ariad

open List

variable {ρ : Type} {I : StreamingInput ρ} {T : Tables ρ} {s s' : Streaming ρ} {k : ℕ}

namespace StreamingInput

/-- The files of a batch. -/
def batch (I : StreamingInput ρ) (seq : ℕ) : List RelPath := I.batches[seq]?.getD []

/-- The rows of a file that a run that cannot write it leaves behind. -/
def rowsBefore (I : StreamingInput ρ) (T : Tables ρ) (p : RelPath) : FileRows ρ :=
  if I.incremental then T p else fun _ => none

/-- The rows of a written file. -/
def rowsAfter (I : StreamingInput ρ) (T : Tables ρ) (r : WorkerFileResult ρ) : FileRows ρ :=
  (writeStmts I r).foldl (fun rows stmt => stmt.onRows rows) (I.rowsBefore T r.filePath)

/-- No file is dispatched twice, and none whose content has not changed. -/
structure Separate (I : StreamingInput ρ) : Prop where
  nodup : I.batches.flatten.Nodup
  metadata : ∀ h ∈ I.allMetadataOnlyHashUpdates, h.1 ∉ I.batches.flatten

/-- The database refuses no statement that a dispatched file is written by. -/
def Accepts (I : StreamingInput ρ) : Prop :=
  ∀ r, r.filePath ∈ I.batches.flatten → ∀ stmt ∈ metadataStmts I ++ writeStmts I r, ∀ T,
    I.fails stmt T = false

variable {r : WorkerFileResult ρ} {p : RelPath}

theorem take_succ_flatten (I : StreamingInput ρ) (n : ℕ) :
    (I.batches.take (n + 1)).flatten = (I.batches.take n).flatten ++ I.batch n := by
  rw [take_add_one, flatten_append, batch]
  cases I.batches[n]? <;> simp

theorem mem_flatten_of_batch (I : StreamingInput ρ) {seq i : ℕ}
    (h : (I.batch seq)[i]? = some p) : p ∈ I.batches.flatten := by
  rw [batch] at h
  cases hb : I.batches[seq]? with
  | none => simp [hb] at h
  | some b =>
    rw [hb] at h
    exact mem_flatten.mpr ⟨b, mem_of_getElem? hb, mem_of_getElem? h⟩

end StreamingInput

/-! ## Statements -/

theorem runStmts_of_never {fails : WriteStmt ρ → Tables ρ → Bool} {stmts : List (WriteStmt ρ)}
    (h : ∀ stmt ∈ stmts, ∀ T, fails stmt T = false) (T : Tables ρ) :
    runStmts fails stmts T = (stmts.foldl (fun T stmt => stmt.run T) T, false) := by
  induction stmts generalizing T with
  | nil => rfl
  | cons stmt stmts ih =>
    simp only [runStmts, h stmt mem_cons_self, foldl_cons]
    exact ih (fun stmt' hmem => h stmt' (mem_cons_of_mem _ hmem)) _

/-- Statements about other files leave the rows of a file alone. -/
theorem foldl_run_of_ne {stmts : List (WriteStmt ρ)}
    (h : ∀ stmt ∈ stmts, stmt.path ≠ p) (T : Tables ρ) :
    stmts.foldl (fun T stmt => stmt.run T) T p = T p := by
  induction stmts generalizing T with
  | nil => rfl
  | cons stmt stmts ih =>
    rw [foldl_cons, ih fun stmt' hmem => h stmt' (mem_cons_of_mem _ hmem)]
    exact Function.update_of_ne (h stmt mem_cons_self).symm _ _

/-- Statements about one file, seen at that file. -/
theorem foldl_run_of_eq {stmts : List (WriteStmt ρ)}
    (h : ∀ stmt ∈ stmts, stmt.path = p) (T : Tables ρ) :
    stmts.foldl (fun T stmt => stmt.run T) T p =
      stmts.foldl (fun rows stmt => stmt.onRows rows) (T p) := by
  induction stmts generalizing T with
  | nil => rfl
  | cons stmt stmts ih =>
    rw [foldl_cons, foldl_cons,
      ih fun stmt' hmem => h stmt' (mem_cons_of_mem _ hmem)]
    obtain rfl := h stmt mem_cons_self
    rw [WriteStmt.run, Function.update_self]

theorem writeStmts_path {stmt : WriteStmt ρ} (h : stmt ∈ writeStmts I r) :
    stmt.path = r.filePath := by
  simp only [writeStmts, hashStmts, mem_append, mem_cons, not_mem_nil, or_false,
    Option.mem_toList, Option.map_eq_some_iff] at h
  rcases h with (((((((((h | h) | h) | h) | h) | h) | h) | h) | h) | h)
  all_goals first
    | (split at h
       · rw [mem_singleton] at h
         rw [h]
         rfl
       · cases h)
    | (rcases h with rfl | rfl <;> rfl)
    | (obtain ⟨x, -, rfl⟩ := h; rfl)

/-! ## What has been dealt with -/

namespace Streaming

/-- The tables show what the log says. -/
structure RowsOk (I : StreamingInput ρ) (T : Tables ρ) (s : Streaming ρ) : Prop where
  begun : I.incremental = false → s.fullCleared = false → s.log = []
  untouched : I.incremental = true ∨ s.fullCleared = true → ∀ p ∈ I.batches.flatten,
    (∀ r, .wrote r ∈ s.log → r.filePath ≠ p) → s.tables p = I.rowsBefore T p
  wrote : ∀ r, .wrote r ∈ s.log → s.tables r.filePath = I.rowsAfter T r

/-- The files before the `k`-th of the current batch have been dealt with, in order. -/
structure Logged (I : StreamingInput ρ) (T : Tables ρ) (s : Streaming ρ) (k : ℕ) : Prop where
  log : s.log.map Handling.path =
    (I.batches.take s.nextSeq).flatten ++ (I.batch s.nextSeq).take k
  rows : I.Separate → RowsOk I T s

/-- Everything but the tables and the log is as it was. -/
structure SameBuffer (s s' : Streaming ρ) : Prop where
  reorder : s'.reorder = s.reorder
  nextSeq : s'.nextSeq = s.nextSeq
  nextFileIndex : s'.nextFileIndex = s.nextFileIndex

theorem SameBuffer.trans {s₁ s₂ s₃ : Streaming ρ} (h₁ : SameBuffer s₁ s₂)
    (h₂ : SameBuffer s₂ s₃) : SameBuffer s₁ s₃ :=
  ⟨h₂.reorder.trans h₁.reorder, h₂.nextSeq.trans h₁.nextSeq,
    h₂.nextFileIndex.trans h₁.nextFileIndex⟩

/-- The transaction is open. -/
def Begun (I : StreamingInput ρ) (s : Streaming ρ) : Prop :=
  I.incremental = true ∨ s.fullCleared = true

theorem sameBuffer_begin : SameBuffer s (s.beginTxIfNeeded I) := by
  unfold beginTxIfNeeded
  split <;> exact ⟨rfl, rfl, rfl⟩

theorem begun_begin : Begun I (s.beginTxIfNeeded I) := by
  unfold beginTxIfNeeded Begun
  split
  · rename_i h
    simpa using h
  · exact .inr rfl

section

variable (h : Logged I T s k)
include h

/-- A full run clears the tables before anything has been dealt with. -/
theorem Logged.begin : Logged I T (s.beginTxIfNeeded I) k := by
  unfold beginTxIfNeeded
  split
  · exact h
  · rename_i hnot
    simp only [Bool.or_eq_true, not_or, Bool.not_eq_true] at hnot
    refine ⟨h.log, fun hsep => ?_⟩
    have hlog := (h.rows hsep).begun hnot.1 hnot.2
    refine ⟨fun _ hf => absurd hf (by simp), fun _ p _ _ => ?_, fun r hr => ?_⟩
    · simp only [StreamingInput.rowsBefore, hnot.1, Bool.false_eq_true, if_false]
      rfl
    · rw [show ({ s with tables := .empty, fullCleared := true } : Streaming ρ).log = [] from hlog]
        at hr
      cases hr

/-- The next file has not been dealt with before. -/
theorem Logged.fresh (hsep : I.Separate) (hp : (I.batch s.nextSeq)[k]? = some p) :
    p ∈ I.batches.flatten ∧ ∀ x ∈ s.log, x.path ≠ p := by
  obtain ⟨hk, hget⟩ := List.getElem?_eq_some_iff.mp hp
  have hbatch : I.batches[s.nextSeq]? = some (I.batch s.nextSeq) := by
    cases hb : I.batches[s.nextSeq]? with
    | none => simp [StreamingInput.batch, hb] at hk
    | some b => simp [StreamingInput.batch, hb]
  obtain ⟨hn, hb⟩ := List.getElem?_eq_some_iff.mp hbatch
  have hsplit : I.batches.flatten =
      ((I.batches.take s.nextSeq).flatten ++ (I.batch s.nextSeq).take k) ++
        (p :: ((I.batch s.nextSeq).drop (k + 1) ++ (I.batches.drop (s.nextSeq + 1)).flatten)) := by
    conv_lhs => rw [← take_append_drop s.nextSeq I.batches, flatten_append,
      drop_eq_getElem_cons hn, flatten_cons, hb,
      ← take_append_drop k (I.batch s.nextSeq), drop_eq_getElem_cons hk, hget]
    simp
  refine ⟨by rw [hsplit]; simp, fun x hx heq => ?_⟩
  have hnodup := hsep.nodup
  rw [hsplit, ← h.log, List.nodup_append] at hnodup
  exact hnodup.2.2 x.path (mem_map_of_mem hx) p (by simp) heq

/-- An error is reported for the next file. -/
theorem Logged.report (hbegun : Begun I s) {e : String}
    (hp : (I.batch s.nextSeq)[k]? = some p) : Logged I T (s.report p e) (k + 1) := by
  refine ⟨?_, fun hsep => ⟨?_, ?_, ?_⟩⟩
  · show (s.log ++ [Handling.reported p e]).map Handling.path = _
    rw [map_append, h.log, append_assoc, take_add_one]
    simp [Streaming.report, hp, Handling.path]
  · intro hi hf
    rcases hbegun with hb | hb
    · rw [hi] at hb
      cases hb
    · exact absurd hf (by rw [show (s.report p e).fullCleared = s.fullCleared from rfl, hb]; simp)
  · intro hb q hq hnot
    refine (h.rows hsep).untouched hb q hq fun r hr => hnot r ?_
    exact mem_append_left _ hr
  · intro r hr
    rcases mem_append.mp hr with hr | hr
    · exact (h.rows hsep).wrote r hr
    · simp at hr

/-- The files come in dispatch order. -/
theorem Logged.inOrder : s.log.map Handling.path <+: I.batches.flatten := by
  have hbatch : (I.batches.take s.nextSeq).flatten ++ I.batch s.nextSeq <+: I.batches.flatten := by
    rw [← StreamingInput.take_succ_flatten]
    exact ⟨(I.batches.drop (s.nextSeq + 1)).flatten, by
      rw [← flatten_append, take_append_drop]⟩
  rw [h.log]
  exact ((prefix_append_right_inj _).mpr (List.take_prefix _ _)).trans hbatch

theorem Logged.mem {x : Handling ρ} (hx : x ∈ s.log) : x.path ∈ I.batches.flatten :=
  h.inOrder.subset (mem_map_of_mem hx)

end

/-- The tables after a write, seen at any dispatched file. -/
theorem written_rows (hsep : I.Separate) (b : Bool) (r : WorkerFileResult ρ) (T : Tables ρ) (hp : p ∈ I.batches.flatten) :
    ((if b then metadataStmts I else []) ++ writeStmts I r).foldl (fun T stmt => stmt.run T) T p =
      if p = r.filePath then (writeStmts I r).foldl (fun rows stmt => stmt.onRows rows) (T p)
      else T p := by
  have hmeta : (if b then metadataStmts I else []).foldl (fun T stmt => stmt.run T) T p = T p := by
    refine foldl_run_of_ne (fun stmt hmem => ?_) T
    cases b with
    | false => simp at hmem
    | true =>
      simp only [if_true, metadataStmts, mem_map] at hmem
      obtain ⟨x, hx, rfl⟩ := hmem
      rintro rfl
      exact hsep.metadata x hx hp
  rw [foldl_append]
  by_cases heq : p = r.filePath
  · rw [if_pos heq, foldl_run_of_eq (fun stmt hmem => (writeStmts_path hmem).trans heq.symm), hmeta]
  · rw [if_neg heq, foldl_run_of_ne, hmeta]
    exact fun stmt hmem hpath => heq (hpath.symm.trans (writeStmts_path hmem))

/-- A file is written. -/
theorem Logged.wrote (h : Logged I T s k) (hbegun : Begun I s)
    (hr : (I.batch s.nextSeq)[k]? = some r.filePath) (b b' : Bool) : Logged I T { s with
      tables := ((if b then metadataStmts I else []) ++ writeStmts I r).foldl
        (fun T stmt => stmt.run T) s.tables
      metaApplied := b'
      log := s.log ++ [.wrote r] } (k + 1) := by
  refine ⟨?_, fun hsep => ⟨?_, ?_, ?_⟩⟩
  · show (s.log ++ [Handling.wrote r]).map Handling.path = _
    rw [map_append, h.log, append_assoc, take_add_one]
    simp [hr, Handling.path]
  · intro hi hf
    rcases hbegun with hb | hb
    · rw [hi] at hb
      cases hb
    · rw [show s.fullCleared = false from hf] at hb
      cases hb
  · intro hb q hq hnot
    have hne : q ≠ r.filePath := (hnot r (by simp)).symm
    show List.foldl _ s.tables _ q = _
    rw [written_rows hsep b r s.tables hq, if_neg hne]
    exact (h.rows hsep).untouched hb q hq fun r' hr' => hnot r' (mem_append_left _ hr')
  · intro r' hr'
    show List.foldl _ s.tables _ r'.filePath = _
    obtain ⟨hmem, hfresh⟩ := h.fresh hsep hr
    rcases mem_append.mp hr' with hold | hnew
    · have hold' : r'.filePath ∈ I.batches.flatten := h.mem hold
      have hne : r'.filePath ≠ r.filePath := hfresh _ hold
      rw [written_rows hsep b r s.tables hold', if_neg hne]
      exact (h.rows hsep).wrote r' hold
    · obtain rfl : r' = r := by simpa using hnew
      rw [written_rows hsep b r' s.tables hmem, if_pos rfl, StreamingInput.rowsAfter,
        (h.rows hsep).untouched hbegun _ hmem fun r'' hr'' => hfresh _ hr'']

/-- **A file whose turn has come is dealt with**, when no statement is refused. -/
theorem writeOneFileInTx_spec (hfails : I.Accepts) (h : Logged I T s k) (hr : (I.batch s.nextSeq)[k]? = some r.filePath) :
    ∃ s', writeOneFileInTx I r s = (s', false) ∧ Logged I T s' (k + 1) ∧ SameBuffer s s' ∧
      Begun I s' := by
  have hb := h.begin
  have hsame : SameBuffer s (s.beginTxIfNeeded I) := sameBuffer_begin
  have hbegun : Begun I (s.beginTxIfNeeded I) := begun_begin
  have hr' : (I.batch (s.beginTxIfNeeded I).nextSeq)[k]? = some r.filePath := by
    rw [hsame.nextSeq]
    exact hr
  simp only [writeOneFileInTx]
  generalize s.beginTxIfNeeded I = s₁ at hb hsame hbegun hr'
  cases r.error with
  | some e => exact ⟨_, rfl, hb.report hbegun hr', hsame.trans ⟨rfl, rfl, rfl⟩, hbegun⟩
  | none =>
    have hdisp : r.filePath ∈ I.batches.flatten := I.mem_flatten_of_batch hr
    have haccept : ∀ b : Bool, ∀ stmt ∈ (if b then metadataStmts I else []) ++ writeStmts I r,
        ∀ T, I.fails stmt T = false := by
      intro b stmt hmem
      refine hfails r hdisp stmt ?_
      rw [mem_append] at hmem ⊢
      cases b with
      | true => exact hmem
      | false => exact .inr (hmem.resolve_left (by simp))
    simp only [runStmts_of_never (haccept _), Bool.false_eq_true, if_false]
    exact ⟨_, rfl, hb.wrote hbegun hr' _ _, hsame.trans ⟨rfl, rfl, rfl⟩, hbegun⟩

/-! ## The buffer -/

/-- What a batch holds: the files that arrived are its own, and those that are to come and have
arrived are there when it is done. -/
structure SlotOk (I : StreamingInput ρ) (seq : ℕ) (slot : BatchSlot ρ) (written : ℕ) : Prop where
  expected : slot.expected = (I.batch seq).length
  written : slot.written = written
  written_le : slot.written ≤ slot.expected
  own : ∀ i r, slot.received.lookup i = some r → (I.batch seq)[i]? = some r.filePath
  arrived : slot.done = true → ∀ i, slot.written ≤ i → i < slot.expected →
    (slot.received.lookup i).isSome

/-- The buffer holds the dispatched batches from the current one on. -/
structure BufferOk (I : StreamingInput ρ) (dispatched : ℕ) (s : Streaming ρ) : Prop where
  nextSeq_le : s.nextSeq ≤ dispatched
  dispatched_le : dispatched ≤ I.batches.length
  keys : ∀ seq, (s.reorder.lookup seq).isSome ↔ s.nextSeq ≤ seq ∧ seq < dispatched
  slot : ∀ seq slot, s.reorder.lookup seq = some slot →
    SlotOk I seq slot (if seq = s.nextSeq then s.nextFileIndex else 0)
  fresh : s.reorder.lookup s.nextSeq = none → s.nextFileIndex = 0

/-- The same batch, after some of its files were dealt with. -/
structure SameBatch (slot slot' : BatchSlot ρ) : Prop where
  done : slot'.done = slot.done
  failed : slot'.failed = slot.failed
  written_le : slot.written ≤ slot'.written
  received : ∀ i, slot'.written ≤ i → slot'.received.lookup i = slot.received.lookup i

theorem SameBatch.refl (slot : BatchSlot ρ) : SameBatch slot slot := ⟨rfl, rfl, le_rfl, fun _ _ => rfl⟩

theorem SameBatch.trans {s₁ s₂ s₃ : BatchSlot ρ} (h₁ : SameBatch s₁ s₂) (h₂ : SameBatch s₂ s₃) :
    SameBatch s₁ s₃ :=
  ⟨h₂.done.trans h₁.done, h₂.failed.trans h₁.failed, h₁.written_le.trans h₂.written_le,
    fun i hi => (h₂.received i hi).trans (h₁.received i (h₂.written_le.trans hi))⟩

/-- What a flush does to the buffer: it takes out batches that are over, and deals with files of
those that are not. -/
structure Keeps (s s' : Streaming ρ) : Prop where
  running : ∀ seq slot, s.reorder.lookup seq = some slot → slot.done = false →
    slot.failed = false → ∃ slot', s'.reorder.lookup seq = some slot' ∧ SameBatch slot slot'
  origin : ∀ seq slot', s'.reorder.lookup seq = some slot' →
    ∃ slot, s.reorder.lookup seq = some slot ∧ SameBatch slot slot'

theorem Keeps.refl (s : Streaming ρ) : Keeps s s :=
  ⟨fun _ slot h _ _ => ⟨slot, h, .refl _⟩, fun _ slot h => ⟨slot, h, .refl _⟩⟩

theorem Keeps.of_reorder {s s' : Streaming ρ} (h : s'.reorder = s.reorder) : Keeps s s' :=
  ⟨fun _ slot hs _ _ => ⟨slot, by rw [h]; exact hs, .refl _⟩,
    fun _ slot hs => ⟨slot, by rw [← h]; exact hs, .refl _⟩⟩

theorem Keeps.trans {s₁ s₂ s₃ : Streaming ρ} (h₁ : Keeps s₁ s₂) (h₂ : Keeps s₂ s₃) :
    Keeps s₁ s₃ := by
  refine ⟨fun seq slot hs hd hf => ?_, fun seq slot hs => ?_⟩
  · obtain ⟨slot', hs', hb⟩ := h₁.running seq slot hs hd hf
    obtain ⟨slot'', hs'', hb'⟩ :=
      h₂.running seq slot' hs' (hb.done.trans hd) (hb.failed.trans hf)
    exact ⟨slot'', hs'', hb.trans hb'⟩
  · obtain ⟨slot', hs', hb⟩ := h₂.origin seq slot hs
    obtain ⟨slot'', hs'', hb'⟩ := h₁.origin seq slot' hs'
    exact ⟨slot'', hs'', hb'.trans hb⟩

/-- Nothing is left to be written for now. -/
def Quiescent (s : Streaming ρ) : Prop :=
  ∀ slot, s.reorder.lookup s.nextSeq = some slot → slot.failed = false ∧
    slot.received.lookup s.nextFileIndex = none ∧
    ¬(slot.done = true ∧ slot.expected ≤ s.nextFileIndex)

/-- The buffer and the log are in order. -/
structure MainOk (I : StreamingInput ρ) (T : Tables ρ) (dispatched : ℕ) (s : Streaming ρ) :
    Prop where
  buffer : BufferOk I dispatched s
  logged : Logged I T s s.nextFileIndex

variable {n : ℕ}

/-- One file of the current batch is taken out of the buffer and dealt with. -/
theorem BufferOk.advance (h : BufferOk I n s) {slot : BatchSlot ρ}
    (hslot : s.reorder.lookup s.nextSeq = some slot)
    (hr : slot.received.lookup s.nextFileIndex = some r)
    (hsame : SameBuffer (s.setSlot s.nextSeq (slot.without s.nextFileIndex)) s') :
    BufferOk I n (s'.fileWritten (slot.without s.nextFileIndex)) ∧
      Keeps s (s'.fileWritten (slot.without s.nextFileIndex)) := by
  have hok := h.slot _ _ hslot
  rw [if_pos rfl] at hok
  have hlt : s.nextFileIndex < slot.expected := by
    rw [hok.expected]
    exact (List.getElem?_eq_some_iff.mp (hok.own _ _ hr)).1
  have hseq : s'.nextSeq = s.nextSeq := hsame.nextSeq
  have hidx : s'.nextFileIndex = s.nextFileIndex := hsame.nextFileIndex
  set slot' : BatchSlot ρ := { slot.without s.nextFileIndex with written := slot.written + 1 }
    with hslot'
  have hbatch : SameBatch slot slot' := by
    refine ⟨rfl, rfl, Nat.le_succ _, fun i hi => AList.lookup_erase_ne ?_⟩
    have hle : slot.written + 1 ≤ i := hi
    have := hok.written
    omega
  have hlook : ∀ seq, (s'.fileWritten (slot.without s.nextFileIndex)).reorder.lookup seq =
      if seq = s.nextSeq then some slot' else s.reorder.lookup seq := by
    intro seq
    show (s'.reorder.insert s'.nextSeq slot').lookup seq = _
    rw [hsame.reorder, hseq]
    by_cases hq : seq = s.nextSeq
    · rw [if_pos hq, hq, AList.lookup_insert]
    · rw [if_neg hq, AList.lookup_insert_ne hq]
      exact AList.lookup_insert_ne hq
  refine ⟨⟨?_, h.dispatched_le, ?_, ?_, ?_⟩, ⟨?_, ?_⟩⟩
  · show s'.nextSeq ≤ n
    rw [hseq]
    exact h.nextSeq_le
  · intro seq
    show _ ↔ s'.nextSeq ≤ seq ∧ seq < n
    rw [hseq, ← h.keys, hlook]
    split
    · rename_i hq
      rw [hq, hslot]
      simp
    · rfl
  · intro seq sl hsl
    rw [hlook] at hsl
    show SlotOk I seq sl (if seq = s'.nextSeq then s'.nextFileIndex + 1 else 0)
    rw [hseq, hidx]
    split at hsl
    · rename_i hq
      cases hsl
      subst hq
      rw [if_pos rfl]
      refine ⟨hok.expected, congrArg (· + 1) hok.written, ?_, fun i r' hr' => ?_, ?_⟩
      · show slot.written + 1 ≤ slot.expected
        have := hok.written
        omega
      · by_cases hi : i = s.nextFileIndex
        · rw [hi, show slot'.received = slot.received.erase s.nextFileIndex from rfl,
            AList.lookup_erase] at hr'
          cases hr'
        · exact hok.own i r' ((AList.lookup_erase_ne hi).symm.trans hr')
      · intro hd i hi hi'
        rw [hbatch.received i hi]
        exact hok.arrived hd i (hbatch.written_le.trans hi) hi'
    · rename_i hq
      have := h.slot seq sl hsl
      rw [if_neg hq] at this ⊢
      exact this
  · intro hnone
    have hat : (s'.fileWritten (slot.without s.nextFileIndex)).nextSeq = s.nextSeq := hseq
    rw [hlook, if_pos hat] at hnone
    cases hnone
  · intro seq sl hsl hd hf
    rw [hlook]
    split
    · rename_i hq
      rw [hq, hslot] at hsl
      cases hsl
      exact ⟨slot', rfl, hbatch⟩
    · exact ⟨sl, hsl, .refl _⟩
  · intro seq sl hsl
    rw [hlook] at hsl
    split at hsl
    · rename_i hq
      cases hsl
      rw [hq]
      exact ⟨slot, hslot, hbatch⟩
    · exact ⟨sl, hsl, .refl _⟩

theorem BufferOk.of_same (h : BufferOk I n s) (hsame : SameBuffer s s') : BufferOk I n s' := by
  obtain ⟨hreorder, hseq, hidx⟩ := hsame
  refine ⟨?_, h.dispatched_le, ?_, ?_, ?_⟩
  · rw [hseq]
    exact h.nextSeq_le
  · rw [hreorder, hseq]
    exact h.keys
  · rw [hreorder, hseq, hidx]
    exact h.slot
  · rw [hreorder, hseq, hidx]
    exact h.fresh

/-- A batch that is over leaves the buffer. -/
theorem BufferOk.nextBatch (h : BufferOk I n s) {slot : BatchSlot ρ}
    (hslot : s.reorder.lookup s.nextSeq = some slot) (hover : slot.done = true ∨ slot.failed = true) :
    BufferOk I n s.nextBatch ∧ Keeps s s.nextBatch := by
  have hlook : ∀ seq, s.nextBatch.reorder.lookup seq =
      if seq = s.nextSeq then none else s.reorder.lookup seq := by
    intro seq
    show (s.reorder.erase s.nextSeq).lookup seq = _
    by_cases hq : seq = s.nextSeq
    · rw [if_pos hq, hq, AList.lookup_erase]
    · rw [if_neg hq, AList.lookup_erase_ne hq]
  have hlt : s.nextSeq < n := ((h.keys _).mp (by rw [hslot]; rfl)).2
  refine ⟨⟨hlt, h.dispatched_le, ?_, ?_, fun _ => rfl⟩, ⟨?_, ?_⟩⟩
  · intro seq
    rw [hlook]
    show _ ↔ s.nextSeq + 1 ≤ seq ∧ seq < n
    split
    · rename_i hq
      simp [hq]
    · rename_i hq
      rw [h.keys]
      omega
  · intro seq sl hsl
    rw [hlook] at hsl
    split at hsl
    · cases hsl
    · rename_i hq
      have := h.slot seq sl hsl
      rw [if_neg hq] at this
      show SlotOk I seq sl (if seq = s.nextSeq + 1 then 0 else 0)
      rw [ite_self]
      exact this
  · intro seq sl hsl hd hf
    rw [hlook]
    split
    · rename_i hq
      rw [hq, hslot] at hsl
      cases hsl
      rcases hover with hover | hover
      · rw [hd] at hover
        cases hover
      · rw [hf] at hover
        cases hover
    · exact ⟨sl, hsl, .refl _⟩
  · intro seq sl hsl
    rw [hlook] at hsl
    split at hsl
    · cases hsl
    · exact ⟨sl, hsl, .refl _⟩

/-- All files of the current batch have been dealt with. -/
theorem Logged.nextBatch (h : Logged I T s k) (hk : k = (I.batch s.nextSeq).length) :
    Logged I T s.nextBatch 0 := by
  refine ⟨?_, fun hsep => ⟨(h.rows hsep).begun, (h.rows hsep).untouched, (h.rows hsep).wrote⟩⟩
  show s.log.map Handling.path =
    (I.batches.take (s.nextSeq + 1)).flatten ++ (I.batch (s.nextSeq + 1)).take 0
  rw [h.log, StreamingInput.take_succ_flatten, hk, take_length, take_zero,
    append_nil]

/-- The buffer plays no role for what has been dealt with. -/
theorem Logged.setSlot (h : Logged I T s k) (seq : ℕ) (slot : BatchSlot ρ) :
    Logged I T (s.setSlot seq slot) k :=
  ⟨h.log, fun hsep => ⟨(h.rows hsep).begun, (h.rows hsep).untouched, (h.rows hsep).wrote⟩⟩

theorem Logged.fileWritten (h : Logged I T s k) (slot : BatchSlot ρ) :
    Logged I T (s.fileWritten slot) k :=
  ⟨h.log, fun hsep => ⟨(h.rows hsep).begun, (h.rows hsep).untouched, (h.rows hsep).wrote⟩⟩

end Streaming

end Ariad
