import Ariad.Indexer.Flush

/-!
# Every order of messages and deaths delivers every file

The slots share the buffer with the main thread. What a slot has seen of its batch determines what
the buffer holds of it (`PostedOk`), and every batch in the buffer is still running or over
(`RunOk`). One lemma per kind of event shows that `RunOk` is kept:

* `RunOk.callback` — the entry of a running batch changes, and the main thread flushes.
* `RunOk.takeBatch` — a slot that has none takes the next batch, if there is one.

When all slots have finished, every batch is over and nothing is left to be written; so the buffer
is empty and the log holds all files.
-/

namespace Ariad

open Function Option Nat List

variable {ρ : Type} {I : StreamingInput ρ} {T : Tables ρ} {s s' : Streaming ρ} {n : ℕ}

/-! ## The entry of a batch changes -/

namespace Streaming

variable {posting : Posting} {seq : ℕ}

variable {slot : BatchSlot ρ}

theorem lookup_setSlot (s : Streaming ρ) (seq : ℕ) (slot : BatchSlot ρ) (seq' : ℕ) :
    (s.setSlot seq slot).reorder.lookup seq' =
      if seq' = seq then some slot else s.reorder.lookup seq' := by
  by_cases h : seq' = seq
  · rw [if_pos h, h]
    exact AList.lookup_insert _
  · rw [if_neg h]
    exact AList.lookup_insert_ne h

theorem MainOk.setSlot (h : MainOk I T n s) {slot slot' : BatchSlot ρ}
    (hslot : s.reorder.lookup seq = some slot)
    (hok : SlotOk I seq slot' (if seq = s.nextSeq then s.nextFileIndex else 0)) :
    MainOk I T n (s.setSlot seq slot') := by
  refine ⟨⟨h.buffer.nextSeq_le, h.buffer.dispatched_le, fun seq' => ?_, fun seq' sl hsl => ?_,
    fun hnone => ?_⟩, h.logged.setSlot seq slot'⟩
  · rw [lookup_setSlot]
    show _ ↔ s.nextSeq ≤ seq' ∧ seq' < n
    rw [← h.buffer.keys]
    split
    · rename_i heq
      rw [heq, hslot]
      simp
    · rfl
  · rw [lookup_setSlot] at hsl
    split at hsl
    · rename_i heq
      cases hsl
      rw [heq]
      exact hok
    · exact h.buffer.slot seq' sl hsl
  · rw [lookup_setSlot] at hnone
    split at hnone
    · cases hnone
    · exact h.buffer.fresh hnone

/-- A batch enters the buffer. -/
theorem MainOk.dispatch (h : MainOk I T n s) {batch : List RelPath}
    (hb : I.batches[n]? = some batch) :
    MainOk I T (n + 1) (s.setSlot n ⟨∅, batch.length, 0, false, false, ""⟩) := by
  have hlt : n < I.batches.length := (List.getElem?_eq_some_iff.mp hb).1
  have hold : s.reorder.lookup n = none := by
    rw [← not_isSome_iff_eq_none, h.buffer.keys]
    omega
  refine ⟨⟨h.buffer.nextSeq_le.trans (le_succ _), succ_le_of_lt hlt, fun seq => ?_,
    fun seq slot hslot => ?_, fun hnone => ?_⟩, h.logged.setSlot _ _⟩
  · rw [lookup_setSlot]
    show _ ↔ s.nextSeq ≤ seq ∧ seq < n + 1
    split
    · rename_i heq
      have := h.buffer.nextSeq_le
      simp only [isSome_some, true_iff]
      omega
    · rename_i hne
      rw [h.buffer.keys]
      omega
  · rw [lookup_setSlot] at hslot
    show SlotOk I seq slot (if seq = s.nextSeq then s.nextFileIndex else 0)
    split at hslot
    · rename_i heq
      cases hslot
      have hidx : (if seq = s.nextSeq then s.nextFileIndex else 0) = 0 := by
        split
        · rename_i heq'
          exact h.buffer.fresh (by rw [← heq', heq]; exact hold)
        · rfl
      rw [hidx, heq]
      refine ⟨?_, rfl, Nat.zero_le _, fun i r hr => ?_, fun hd => ?_⟩
      · rw [StreamingInput.batch, hb]
        rfl
      · rw [show (BatchSlot.received ⟨∅, batch.length, 0, false, false, ""⟩) =
          (∅ : AList fun _ : ℕ => WorkerFileResult ρ) from rfl, AList.lookup_empty] at hr
        cases hr
      · cases hd
    · exact h.buffer.slot seq slot hslot
  · rw [lookup_setSlot] at hnone
    split at hnone
    · cases hnone
    · exact h.buffer.fresh hnone

/-- An empty batch leaves nothing to be written. -/
theorem Quiescent.dispatch (h : Quiescent s) (expected : ℕ) :
    Quiescent (s.setSlot n ⟨∅, expected, 0, false, false, ""⟩) := by
  intro slot hslot
  rw [lookup_setSlot] at hslot
  split at hslot
  · cases hslot
    exact ⟨rfl, AList.lookup_empty _, fun hover => absurd hover.1 (by simp)⟩
  · exact h slot hslot

theorem Keeps.of_lookup (h : ∀ seq, s'.reorder.lookup seq = s.reorder.lookup seq) : Keeps s s' :=
  ⟨fun seq slot hs _ _ => ⟨slot, by rw [h]; exact hs, .refl _⟩,
    fun seq slot hs => ⟨slot, by rw [← h]; exact hs, .refl _⟩⟩

end Streaming

namespace StreamingRun

open Streaming

variable {c : StreamingRun ρ} {w : ℕ}

/-- What the buffer holds of a batch whose worker has posted this much. -/
def PostedOk (slot : BatchSlot ρ) : Posting → Prop
  | .files posted => ∀ i, slot.written ≤ i → i < posted → (slot.received.lookup i).isSome
  | .rejecting _ _ => True

/-- A batch that is not over, with what its worker has posted. -/
structure Running (slot : BatchSlot ρ) (posting : Posting) : Prop where
  done : slot.done = false
  failed : slot.failed = false
  posted : PostedOk slot posting

theorem Running.same {slot slot' : BatchSlot ρ} (h : Running slot posting)
    (hsame : SameBatch slot slot') : Running slot' posting := by
  refine ⟨hsame.done.trans h.done, hsame.failed.trans h.failed, ?_⟩
  cases posting with
  | files posted =>
    intro i hi hlt
    rw [hsame.received i hi]
    exact h.posted i (hsame.written_le.trans hi) hlt
  | rejecting e posted => trivial

/-- The batches that have been dispatched. -/
def dispatched (I : StreamingInput ρ) (c : StreamingRun ρ) : ℕ := min c.batchIndex I.batches.length

/-- **The invariant of a run.** -/
structure RunOk (I : StreamingInput ρ) (T : Tables ρ) (c : StreamingRun ρ) : Prop where
  crashed : c.crashed = false
  main : MainOk I T (c.dispatched I) c.main
  quiet : Quiescent c.main
  running : ∀ w seq posting, c.slots w = .running seq posting →
    ∃ slot, c.main.reorder.lookup seq = some slot ∧ Running slot posting
  owner : ∀ seq slot, c.main.reorder.lookup seq = some slot →
    (∃ w posting, c.slots w = .running seq posting) ∨ slot.done = true ∨ slot.failed = true
  distinct : ∀ w w' seq posting posting', c.slots w = .running seq posting →
    c.slots w' = .running seq posting' → w = w'
  finished : ∀ w, c.slots w = .finished → I.batches.length ≤ c.batchIndex
  bound : ∀ w, c.slots w ≠ .notStarted → w < min I.numWorkers I.batches.length

theorem RunOk.initial : RunOk I T (initial T) := by
  have hnone : ∀ seq, (StreamingRun.initial T).main.reorder.lookup seq = none := fun seq =>
    AList.lookup_empty seq
  refine ⟨rfl, ⟨⟨Nat.zero_le _, min_le_right _ _, fun seq => ?_, fun seq slot h => ?_,
    fun _ => rfl⟩, ⟨?_, fun _ => ⟨fun _ _ => rfl, fun h p _ _ => ?_, fun r hr => ?_⟩⟩⟩,
    fun slot h => ?_, fun w seq posting h => ?_, fun seq slot h => ?_,
    fun w w' seq posting posting' h => ?_, fun w h => ?_, fun w h => ?_⟩
  · rw [hnone]
    show _ ↔ 0 ≤ seq ∧ seq < min 0 _
    simp
  · rw [hnone] at h
    cases h
  · rfl
  · rcases h with h | h
    · rw [StreamingInput.rowsBefore, if_pos h]
      rfl
    · cases h
  · cases hr
  · rw [hnone] at h
    cases h
  · cases h
  · rw [hnone] at h
    cases h
  · cases h
  · cases h
  · exact absurd rfl h

/-- **The entry of a running batch changes, and the main thread flushes.** The slot goes on with the
batch, or the batch is over. -/
theorem RunOk.callback (h : RunOk I T c) (hw : c.slots w = .running seq posting)
    (hkeeps : Keeps (c.main.setSlot seq slot) s) (hmain : MainOk I T (c.dispatched I) s)
    (hquiet : Quiescent s) {st : SlotState}
    (hst : (∃ posting', st = .running seq posting' ∧ Running slot posting') ∨
      st = .notStarted ∧ (slot.done = true ∨ slot.failed = true)) :
    RunOk I T { c.setSlot w st with main := s, crashed := false } := by
  have hslots : ∀ w', (c.setSlot w st).slots w' = if w' = w then st else c.slots w' := fun w' =>
    update_apply _ _ _ _
  have hrun : ∀ w' seq' posting', (c.setSlot w st).slots w' = .running seq' posting' →
      w' = w ∧ seq' = seq ∧ Running slot posting' ∨
      w' ≠ w ∧ seq' ≠ seq ∧ c.slots w' = .running seq' posting' := by
    intro w' seq' posting' h'
    rw [hslots] at h'
    split at h'
    · rename_i heq
      rcases hst with ⟨p, rfl, hp⟩ | ⟨rfl, -⟩
      · cases h'
        exact .inl ⟨heq, rfl, hp⟩
      · cases h'
    · rename_i hne
      refine .inr ⟨hne, ?_, h'⟩
      rintro rfl
      exact hne (h.distinct _ _ _ _ _ h' hw)
  refine ⟨rfl, hmain, hquiet, fun w' seq' posting' h' => ?_, fun seq' slot' h' => ?_,
    fun w₁ w₂ seq' p₁ p₂ h₁ h₂ => ?_, fun w' h' => ?_, fun w' h' => ?_⟩
  · obtain ⟨slot₀, hslot₀, hrunning⟩ : ∃ slot₀,
        (c.main.setSlot seq slot).reorder.lookup seq' = some slot₀ ∧ Running slot₀ posting' := by
      rw [lookup_setSlot]
      rcases hrun w' seq' posting' h' with ⟨-, heq, hp⟩ | ⟨-, hne, h''⟩
      · rw [if_pos heq]
        exact ⟨slot, rfl, hp⟩
      · rw [if_neg hne]
        exact h.running w' seq' posting' h''
    obtain ⟨slot₁, hslot₁, hsame⟩ :=
      hkeeps.running seq' slot₀ hslot₀ hrunning.done hrunning.failed
    exact ⟨slot₁, hslot₁, hrunning.same hsame⟩
  · obtain ⟨slot₀, hslot₀, hsame⟩ := hkeeps.origin seq' slot' h'
    rw [lookup_setSlot] at hslot₀
    rw [hsame.done, hsame.failed]
    split at hslot₀
    · rename_i heq
      cases hslot₀
      rcases hst with ⟨p, rfl, -⟩ | ⟨-, hover⟩
      · exact .inl ⟨w, p, by rw [heq]; exact (hslots w).trans (if_pos rfl)⟩
      · exact .inr hover
    · rename_i hne
      rcases h.owner seq' slot₀ hslot₀ with ⟨w', p, h''⟩ | hover
      · refine .inl ⟨w', p, (hslots w').trans ?_⟩
        rw [if_neg, h'']
        rintro rfl
        rw [hw] at h''
        cases h''
        exact hne rfl
      · exact .inr hover
  · rcases hrun w₁ seq' p₁ h₁ with ⟨rfl, rfl, -⟩ | ⟨-, hne, h₁'⟩
    · rcases hrun w₂ _ p₂ h₂ with ⟨rfl, -, -⟩ | ⟨-, hne, -⟩
      · rfl
      · exact absurd rfl hne
    · rcases hrun w₂ _ p₂ h₂ with ⟨-, heq, -⟩ | ⟨-, -, h₂'⟩
      · exact absurd heq hne
      · exact h.distinct _ _ _ _ _ h₁' h₂'
  · replace h' := (hslots w').symm.trans h'
    split at h'
    · rcases hst with ⟨p, rfl, -⟩ | ⟨rfl, -⟩ <;> cases h'
    · exact h.finished w' h'
  · by_cases heq : w' = w
    · refine h.bound w' ?_
      rw [heq, hw]
      simp
    · exact h.bound w' fun h'' => h' (((hslots w').trans (if_neg heq)).trans h'')

/-- **A slot takes the next batch.** -/
theorem RunOk.takeBatch (h : RunOk I T c) (hw : c.slots w = .notStarted)
    (hbound : w < min I.numWorkers I.batches.length) : RunOk I T (c.takeBatch I w) := by
  have hslots : ∀ st w', (c.setSlot w st).slots w' = if w' = w then st else c.slots w' :=
    fun st w' => update_apply _ _ _ _
  have hbound' : ∀ st w', (c.setSlot w st).slots w' ≠ .notStarted →
      w' < min I.numWorkers I.batches.length := by
    intro st w' hne
    by_cases heq : w' = w
    · rw [heq]
      exact hbound
    · rw [hslots, if_neg heq] at hne
      exact h.bound w' hne
  rw [StreamingRun.takeBatch]
  cases hb : I.batches[c.batchIndex]? with
  | none =>
    have hle : I.batches.length ≤ c.batchIndex := List.getElem?_eq_none_iff.mp hb
    have hdisp : c.dispatched I = I.batches.length := min_eq_right hle
    have hother : ∀ w' seq posting, (c.setSlot w .finished).slots w' = .running seq posting →
        c.slots w' = .running seq posting := by
      intro w' seq posting h'
      rw [hslots] at h'
      split at h'
      · cases h'
      · exact h'
    refine ⟨h.crashed, ?_, h.quiet, fun w' seq posting h' => h.running _ _ _ (hother _ _ _ h'),
      fun seq slot h' => ?_, fun w₁ w₂ seq p₁ p₂ h₁ h₂ =>
        h.distinct _ _ _ _ _ (hother _ _ _ h₁) (hother _ _ _ h₂), fun _ _ => hle.trans (le_succ _),
      hbound' _⟩
    · show MainOk I T (min (c.batchIndex + 1) I.batches.length) c.main
      rw [min_eq_right (hle.trans (le_succ _)), ← hdisp]
      exact h.main
    · rcases h.owner seq slot h' with ⟨w', p, h''⟩ | hover
      · refine .inl ⟨w', p, (hslots _ w').trans ?_⟩
        rw [if_neg, h'']
        rintro rfl
        rw [hw] at h''
        cases h''
      · exact .inr hover
  | some batch =>
    have hlt : c.batchIndex < I.batches.length := (List.getElem?_eq_some_iff.mp hb).1
    have hdisp : c.dispatched I = c.batchIndex := min_eq_left hlt.le
    have hmain := h.main
    rw [hdisp] at hmain
    have hold : c.main.reorder.lookup c.batchIndex = none := by
      rw [← not_isSome_iff_eq_none, hmain.buffer.keys]
      omega
    have hnew : ∀ w' seq posting,
        (c.setSlot w (.running c.batchIndex (.files 0))).slots w' = .running seq posting →
        w' = w ∧ seq = c.batchIndex ∧ posting = .files 0 ∨
        seq ≠ c.batchIndex ∧ c.slots w' = .running seq posting := by
      intro w' seq posting h'
      rw [hslots] at h'
      split at h'
      · rename_i heq
        cases h'
        exact .inl ⟨heq, rfl, rfl⟩
      · refine .inr ⟨?_, h'⟩
        rintro rfl
        obtain ⟨slot, hslot, -⟩ := h.running _ _ _ h'
        rw [hold] at hslot
        cases hslot
    dsimp only
    refine ⟨h.crashed, ?_, h.quiet.dispatch _, fun w' seq posting h' => ?_,
      fun seq slot h' => ?_, fun w₁ w₂ seq p₁ p₂ h₁ h₂ => ?_, fun w' h' => ?_, hbound' _⟩
    · show MainOk I T (min (c.batchIndex + 1) I.batches.length) _
      rw [min_eq_left (succ_le_of_lt hlt)]
      exact hmain.dispatch hb
    · rw [lookup_setSlot]
      rcases hnew w' seq posting h' with ⟨-, heq, rfl⟩ | ⟨hne, h''⟩
      · rw [if_pos heq]
        exact ⟨_, rfl, rfl, rfl, fun i _ hi => absurd hi (Nat.not_lt_zero i)⟩
      · rw [if_neg hne]
        exact h.running _ _ _ h''
    · rw [lookup_setSlot] at h'
      split at h'
      · rename_i heq
        exact .inl ⟨w, .files 0, by rw [heq]; exact (hslots _ w).trans (if_pos rfl)⟩
      · rcases h.owner seq slot h' with ⟨w', p, h''⟩ | hover
        · refine .inl ⟨w', p, (hslots _ w').trans ?_⟩
          rw [if_neg, h'']
          rintro rfl
          rw [hw] at h''
          cases h''
        · exact .inr hover
    · rcases hnew w₁ seq p₁ h₁ with ⟨rfl, rfl, -⟩ | ⟨hne, h₁'⟩
      · rcases hnew w₂ _ p₂ h₂ with ⟨rfl, -, -⟩ | ⟨hne, -⟩
        · rfl
        · exact absurd rfl hne
      · rcases hnew w₂ _ p₂ h₂ with ⟨-, heq, -⟩ | ⟨-, h₂'⟩
        · exact absurd heq hne
        · exact h.distinct _ _ _ _ _ h₁' h₂'
    · replace h' := (hslots _ w').symm.trans h'
      split at h'
      · cases h'
      · exact (h.finished w' h').trans (le_succ _)

/-! ## Events -/

theorem RunOk.slotOk (h : RunOk I T c) (hslot : c.main.reorder.lookup seq = some slot) :
    SlotOk I seq slot (if seq = c.main.nextSeq then c.main.nextFileIndex else 0) :=
  h.main.buffer.slot seq slot hslot

/-- The entry of a running batch changes; the flush that follows does not throw. -/
theorem RunOk.flush (hfails : I.Accepts) (h : RunOk I T c) (hw : c.slots w = .running seq posting)
    (hslot : c.main.reorder.lookup seq = some slot) (slot' : BatchSlot ρ)
    (hok : SlotOk I seq slot' (if seq = c.main.nextSeq then c.main.nextFileIndex else 0)) :
    ∃ s, tryFlush I (c.main.setSlot seq slot') = (s, false) ∧ ∀ st,
      ((∃ posting', st = .running seq posting' ∧ Running slot' posting') ∨
        st = .notStarted ∧ (slot'.done = true ∨ slot'.failed = true)) →
      RunOk I T { c.setSlot w st with main := s, crashed := false } := by
  obtain ⟨s, hrun, hmain, hkeeps, hquiet⟩ := tryFlush_spec hfails (h.main.setSlot hslot hok)
  exact ⟨s, hrun, fun st hst => h.callback hw hkeeps hmain hquiet hst⟩

/-- The batch of a slot is over, and the slot takes the next one. -/
theorem RunOk.endBatch (h : RunOk I T c) (hw : c.slots w = .running seq posting)
    (hover : RunOk I T { c.setSlot w .notStarted with main := s, crashed := false }) :
    RunOk I T (c.endBatch I w (s, false)) := by
  have hbound := h.bound w (by rw [hw]; simp)
  have heq : c.endBatch I w (s, false) =
      StreamingRun.takeBatch I { c.setSlot w .notStarted with main := s, crashed := false } w := by
    simp only [StreamingRun.endBatch, StreamingRun.takeBatch, settle, StreamingRun.setSlot,
      update_idem, Bool.false_eq_true, if_false]
  rw [heq]
  exact hover.takeBatch (update_self _ _ _) hbound

/-- A file of a running batch arrives. -/
theorem RunOk.received (hfails : I.Accepts) (h : RunOk I T c) {seq posted : ℕ}
    {posting posting' : Posting} (hw : c.slots w = .running seq posting) {r : WorkerFileResult ρ}
    (hr : (I.batch seq)[posted]? = some r.filePath) (hposting : ∀ slot, PostedOk slot posting →
      PostedOk { slot with received := slot.received.insert posted r } posting') :
    RunOk I T ((c.setSlot w (.running seq posting')).settle (c.main.received I seq posted r)) := by
  obtain ⟨slot, hslot, hrunning⟩ := h.running w seq posting hw
  have hok := h.slotOk hslot
  obtain ⟨s, hrun, hnext⟩ := h.flush hfails hw hslot
    { slot with received := slot.received.insert posted r }
    ⟨hok.expected, hok.written, hok.written_le, fun i r' hr' => by
      by_cases hi : i = posted
      · rw [hi, AList.lookup_insert] at hr'
        cases hr'
        rw [hi]
        exact hr
      · rw [AList.lookup_insert_ne hi] at hr'
        exact hok.own i r' hr', fun hd =>
        absurd (hrunning.done.symm.trans hd) (by simp)⟩
  have heq : c.main.received I seq posted r = (s, false) := by
    simp only [Streaming.received, hslot]
    exact hrun
  rw [heq]
  exact hnext _ (.inl ⟨posting', rfl, hrunning.done, hrunning.failed, hposting slot hrunning.posted⟩)

/-- A running batch is given up. -/
theorem RunOk.markBatchFailed (hfails : I.Accepts) (h : RunOk I T c)
    (hw : c.slots w = .running seq posting) (e : String) :
    RunOk I T (c.endBatch I w (c.main.markBatchFailed I seq e)) := by
  obtain ⟨slot, hslot, hrunning⟩ := h.running w seq posting hw
  have hok := h.slotOk hslot
  obtain ⟨s, hrun, hnext⟩ := h.flush hfails hw hslot { slot with failed := true, failError := e }
    ⟨hok.expected, hok.written, hok.written_le, hok.own, hok.arrived⟩
  have heq : c.main.markBatchFailed I seq e = (s, false) := by
    simp only [Streaming.markBatchFailed, hslot]
    exact hrun
  rw [heq]
  exact h.endBatch hw (hnext _ (.inr ⟨rfl, .inr rfl⟩))

/-- A batch all of whose files have been posted is done. -/
theorem RunOk.batchResolved (hfails : I.Accepts) (h : RunOk I T c)
    (hw : c.slots w = .running seq (.files (I.batch seq).length)) :
    RunOk I T (c.endBatch I w (c.main.batchResolved I seq)) := by
  obtain ⟨slot, hslot, hrunning⟩ := h.running w seq _ hw
  have hok := h.slotOk hslot
  obtain ⟨s, hrun, hnext⟩ := h.flush hfails hw hslot { slot with done := true }
    ⟨hok.expected, hok.written, hok.written_le, hok.own, fun _ i hi hlt =>
      hrunning.posted i hi (by rw [← hok.expected]; exact hlt)⟩
  have heq : c.main.batchResolved I seq = (s, false) := by
    simp only [Streaming.batchResolved, hslot, hrun]
  rw [heq]
  exact h.endBatch hw (hnext _ (.inr ⟨rfl, .inl rfl⟩))

variable [Inhabited ρ]

/-- **Every event keeps the invariant.** -/
theorem RunOk.next (hfails : I.Accepts) (h : RunOk I T c) {e : WorkerEvent ρ} {c' : StreamingRun ρ}
    (hnext : c.next I e = some c') : RunOk I T c' := by
  simp only [StreamingRun.next, h.crashed, Bool.false_eq_true, if_false] at hnext
  cases e with
  | start w =>
    dsimp only at hnext
    split at hnext
    · rename_i hstart
      cases hnext
      exact h.takeBatch hstart.2 hstart.1
    · cases hnext
  | file w r =>
    dsimp only at hnext
    split at hnext
    · rename_i seq posted hw
      split at hnext
      · rename_i hfile
        cases hnext
        refine h.received hfails hw hfile fun slot hposted i hi hlt => ?_
        by_cases heq : i = posted
        · rw [heq, AList.lookup_insert]
          rfl
        · rw [AList.lookup_insert_ne heq]
          exact hposted i hi (by omega)
      · cases hnext
    · cases hnext
  | reject w error =>
    dsimp only at hnext
    split at hnext
    · rename_i seq posted hw
      cases hnext
      obtain ⟨slot, hslot, hrunning⟩ := h.running w seq _ hw
      have hkeeps : Keeps (c.main.setSlot seq slot) c.main := .of_lookup fun seq' => by
        rw [lookup_setSlot]
        split
        · rename_i heq
          rw [heq, hslot]
        · rfl
      have hrejecting : (∃ posting, SlotState.running seq (.rejecting error 0) =
          .running seq posting ∧ Running slot posting) ∨
          SlotState.running seq (.rejecting error 0) = .notStarted ∧
            (slot.done = true ∨ slot.failed = true) :=
        .inl ⟨_, rfl, hrunning.done, hrunning.failed, trivial⟩
      have hsame := h.callback hw hkeeps h.main h.quiet hrejecting
      have hcrashed := h.crashed
      cases c
      cases hcrashed
      exact hsame
    · cases hnext
  | rejectFile w =>
    dsimp only at hnext
    split at hnext
    · rename_i seq error posted hw
      split at hnext
      · rename_i path hpath
        cases hnext
        exact h.received hfails hw hpath fun _ _ => trivial
      · cases hnext
    · cases hnext
  | done w =>
    dsimp only at hnext
    split at hnext
    · rename_i seq posted hw
      split at hnext
      · rename_i hall
        cases hnext
        subst hall
        exact h.batchResolved hfails hw
      · cases hnext
    · cases hnext
  | doneError w =>
    dsimp only at hnext
    split at hnext
    · rename_i seq error posted hw
      cases hnext
      exact h.markBatchFailed hfails hw error
    · cases hnext
  | die w error =>
    dsimp only at hnext
    split at hnext
    · rename_i seq posting hw
      cases hnext
      exact h.markBatchFailed hfails hw error
    · cases hnext

theorem Reachable.runOk (hfails : I.Accepts) (h : Reachable I T c) : RunOk I T c := by
  induction h with
  | initial => exact .initial
  | step _ hnext ih => exact ih.next hfails hnext

/-! ## The end of a run -/

omit [Inhabited ρ] in
/-- When all slots have finished nothing is left in the buffer. -/
theorem RunOk.drained (h : RunOk I T c) (hworkers : 0 < I.numWorkers) (hfin : c.Finished I) :
    c.main.reorder = ∅ ∧ c.main.nextSeq = I.batches.length := by
  have hdisp : c.dispatched I = I.batches.length := by
    rcases Nat.eq_zero_or_pos I.batches.length with hzero | hpos
    · rw [dispatched, hzero, Nat.min_zero]
    · exact min_eq_right (h.finished 0 (hfin 0 (lt_min hworkers hpos)))
  have hmain := h.main
  rw [hdisp] at hmain
  have hover : ∀ seq slot, c.main.reorder.lookup seq = some slot →
      slot.done = true ∨ slot.failed = true := by
    intro seq slot hslot
    rcases h.owner seq slot hslot with ⟨w, p, hw⟩ | hover
    · have hw' := hfin w (h.bound w (by rw [hw]; simp))
      rw [hw] at hw'
      cases hw'
    · exact hover
  have hnone : c.main.reorder.lookup c.main.nextSeq = none := by
    by_contra hne
    obtain ⟨slot, hslot⟩ := ne_none_iff_exists'.mp hne
    obtain ⟨hfailed, hrecv, hstill⟩ := h.quiet slot hslot
    have hok := hmain.buffer.slot _ _ hslot
    rw [if_pos rfl] at hok
    rcases hover _ _ hslot with hdone | hfailed'
    · have hlt : c.main.nextFileIndex < slot.expected := by
        by_contra hge
        exact hstill ⟨hdone, not_lt.mp hge⟩
      have harrived := hok.arrived hdone c.main.nextFileIndex hok.written.le hlt
      rw [hrecv] at harrived
      cases harrived
    · rw [hfailed] at hfailed'
      cases hfailed'
  have hseq : c.main.nextSeq = I.batches.length := by
    by_contra hne
    have hsome := (hmain.buffer.keys c.main.nextSeq).mpr
      ⟨le_rfl, lt_of_le_of_ne hmain.buffer.nextSeq_le hne⟩
    rw [hnone] at hsome
    cases hsome
  refine ⟨?_, hseq⟩
  have hempty : c.main.reorder.keys = [] := eq_nil_iff_forall_not_mem.mpr fun seq hmem => by
    rw [← AList.mem_keys, ← AList.lookup_isSome, hmain.buffer.keys, hseq] at hmem
    omega
  exact AList.ext (map_eq_nil_iff.mp hempty)

omit [Inhabited ρ] in
/-- The last flush finds nothing to do. -/
theorem RunOk.final_eq (h : RunOk I T c) (hworkers : 0 < I.numWorkers) (hfin : c.Finished I) :
    c.final I = c.main := by
  rw [final, tryFlush, (h.drained hworkers hfin).1]
  rfl

end StreamingRun

open Streaming StreamingRun

omit T in
theorem Streaming.mem_errors {s : Streaming ρ} {p : RelPath} {e : String} :
    (p, e) ∈ s.errors ↔ .reported p e ∈ s.log := by
  simp only [errors, mem_filterMap]
  constructor
  · rintro ⟨x, hx, heq⟩
    cases x with
    | wrote r => cases heq
    | reported q e' =>
      cases heq
      exact hx
  · exact fun h => ⟨_, h, rfl⟩

/-- A file is not both written and reported. -/
theorem Streaming.Logged.exclusive {k : ℕ} (h : Logged I T s k) (hsep : I.Separate)
    {r : WorkerFileResult ρ} {p : RelPath} {e : String} (hr : .wrote r ∈ s.log)
    (hp : .reported p e ∈ s.log) : r.filePath ≠ p := by
  intro heq
  have hnodup : (s.log.map Handling.path).Nodup := hsep.nodup.sublist h.inOrder.sublist
  have := inj_on_of_nodup_map hnodup hr hp heq
  cases this

/-- **The streaming writer deals with every file exactly once.** When the database refuses no
statement that a dispatched file is written by, then in every order of messages and deaths nothing is
thrown and the files are dealt with in dispatch order; when all slots have finished all files have
been, and the buffer is empty. The rows of a written file are those the worker has sent, and a
reported one has the rows it had before, or none in a full run. -/
theorem streamingDelivery [Inhabited ρ] {c : StreamingRun ρ} (hfails : I.Accepts)
    (hworkers : 0 < I.numWorkers) (h : StreamingRun.Reachable I T c) :
    c.crashed = false ∧ c.main.log.map Handling.path <+: I.batches.flatten ∧ (c.Finished I →
      (c.final I).log.map Handling.path = I.batches.flatten ∧ (c.final I).reorder = ∅ ∧
      (I.Separate →
        (∀ r, .wrote r ∈ (c.final I).log → (c.final I).tables r.filePath = I.rowsAfter T r) ∧
        ∀ p e, (p, e) ∈ (c.final I).errors → (∀ r, .wrote r ∈ (c.final I).log → r.filePath ≠ p) ∧
          (c.final I).tables p = I.rowsBefore T p)) := by
  have hok := h.runOk hfails
  refine ⟨hok.crashed, hok.main.logged.inOrder, fun hfin => ?_⟩
  obtain ⟨hempty, hseq⟩ := hok.drained hworkers hfin
  have hlogged := hok.main.logged
  rw [hok.final_eq hworkers hfin]
  refine ⟨?_, hempty, fun hsep => ⟨(hlogged.rows hsep).wrote, fun p e hp => ?_⟩⟩
  · rw [hlogged.log, hseq, List.take_length, StreamingInput.batch,
      List.getElem?_eq_none le_rfl]
    simp
  · rw [mem_errors] at hp
    have hexcl : ∀ r, .wrote r ∈ c.main.log → r.filePath ≠ p := fun r hr =>
      hlogged.exclusive hsep hr hp
    refine ⟨hexcl, (hlogged.rows hsep).untouched ?_ p (hlogged.mem hp) hexcl⟩
    by_contra hnot
    rw [not_or, Bool.not_eq_true, Bool.not_eq_true] at hnot
    rw [(hlogged.rows hsep).begun hnot.1 hnot.2] at hp
    cases hp

/-! ## Two batches, the second one before the first -/

/-- Two batches and two workers; the database may refuse to delete the old edges of `b`. -/
def twoBatches (refuses : Bool) : StreamingInput ℕ where
  batches := [[["a"]], [["b"], ["c"]]]
  numWorkers := 2
  incremental := true
  pendingChanged := [["b"]]
  pendingHashByPath := fun _ => some 1
  allMetadataOnlyHashUpdates := []
  fails := fun stmt _ => refuses && decide (stmt = .delete .edges ["b"])

/-- An extracted file. -/
def extracted (path : RelPath) : WorkerFileResult ℕ := ⟨path, none, 1, 1, none, 1, 1, 1⟩

/-- The second batch is done before the file of the first one has arrived. -/
def overtaking : List (WorkerEvent ℕ) :=
  [.start 0, .start 1, .file 1 (extracted ["b"]), .file 1 (extracted ["c"]), .done 1,
    .file 0 (extracted ["a"]), .done 0]

/-- The run they lead to. -/
def overtaken (refuses : Bool) : StreamingRun ℕ :=
  (StreamingRun.initial .empty).follow (twoBatches refuses) overtaking

theorem overtaken_reachable (refuses : Bool) :
    StreamingRun.Reachable (twoBatches refuses) .empty (overtaken refuses) :=
  Reachable.initial.follow _ overtaking

theorem overtaken_finished (refuses : Bool) : (overtaken refuses).Finished (twoBatches refuses) := by
  unfold Finished
  cases refuses <;> decide +kernel

theorem streamingDelivery_overtaking :
    ((overtaken false).final (twoBatches false)).log.map Handling.path = [["a"], ["b"], ["c"]] ∧
    ((overtaken false).final (twoBatches false)).reorder = ∅ :=
  have h := (streamingDelivery (I := twoBatches false) (fun _ _ _ _ _ => rfl) (by decide)
    (overtaken_reachable false)).2.2 (overtaken_finished false)
  ⟨h.1, h.2.1⟩

/-- **A refused statement in the flush that ends a batch loses files**: the file that was being
written is neither written nor reported, nor is anything behind it. -/
theorem flush_loses_files : ∃ c : StreamingRun ℕ,
    StreamingRun.Reachable (twoBatches true) .empty c ∧ c.Finished (twoBatches true) ∧
    c.crashed = false ∧ (c.final (twoBatches true)).log.map Handling.path = [["a"]] ∧
    (c.final (twoBatches true)).reorder ≠ ∅ := by
  refine ⟨overtaken true, overtaken_reachable true, overtaken_finished true, ?_, ?_, ?_⟩
  · decide +kernel
  · decide +kernel
  · intro h
    have hkeys : ((overtaken true).final (twoBatches true)).reorder.keys = [1] := by
      decide +kernel
    rw [h] at hkeys
    cases hkeys

end Ariad
