import Ariad.Indexer.Delivery

/-!
# A flush deals with everything whose turn has come

When the database refuses no statement, `tryFlush` does not throw. It keeps the buffer and the log
in order (`MainOk`), takes only batches out that are over (`Keeps`), and stops only where nothing is
left to be written for now (`Quiescent`). The loops of the source end by themselves; here each gets
as much fuel as there are entries, and the fuel lasts.
-/

namespace Ariad

open List

variable {ρ : Type} {I : StreamingInput ρ} {T : Tables ρ} {s s' : Streaming ρ} {k n : ℕ}

namespace Streaming

/-! ## Fuel -/

theorem length_entries {β : Type} (s : AList fun _ : ℕ => β) : s.entries.length = s.keys.length := by
  simp [AList.keys, List.keys]

/-- Each round of the inner loop takes one file out. -/
theorem length_erase {β : Type} {s : AList fun _ : ℕ => β} {i : ℕ} {x : β}
    (h : s.lookup i = some x) : (s.erase i).entries.length + 1 = s.entries.length := by
  have hmem : i ∈ s.keys := by
    rw [← AList.mem_keys, ← AList.lookup_isSome, h]
    rfl
  rw [length_entries, length_entries, AList.keys_erase, length_erase_of_mem hmem]
  have := length_pos_of_mem hmem
  omega

/-- There are as many entries as batches in the buffer. -/
theorem BufferOk.fuel (h : BufferOk I n s) : n - s.nextSeq ≤ s.reorder.entries.length := by
  have hsub : List.range' s.nextSeq (n - s.nextSeq) ⊆ s.reorder.keys := fun seq hseq => by
    rw [mem_range'_1] at hseq
    rw [← AList.mem_keys, ← AList.lookup_isSome, h.keys]
    omega
  have hle := (subperm_of_subset nodup_range' hsub).length_le
  rwa [length_range', ← length_entries] at hle

/-! ## The batch at hand -/

section

variable (hfails : I.Accepts)
include hfails

/-- The files of the current batch that have arrived are written, up to the first that has not. -/
theorem flushReceived_spec (fuel : ℕ)
    (h : MainOk I T n s)
    (hfuel : ∀ slot, s.reorder.lookup s.nextSeq = some slot → slot.received.entries.length ≤ fuel) :
    ∃ s', flushReceived I fuel s = (s', false) ∧ MainOk I T n s' ∧ Keeps s s' ∧
      s'.nextSeq = s.nextSeq ∧ ∀ slot', s'.reorder.lookup s'.nextSeq = some slot' →
        slot'.received.lookup s'.nextFileIndex = none := by
  induction fuel generalizing s with
  | zero =>
    refine ⟨s, rfl, h, .refl s, rfl, fun slot hslot => ?_⟩
    have hempty : slot.received.entries = [] :=
      length_eq_zero_iff.mp (Nat.le_zero.mp (hfuel slot hslot))
    rw [AList.lookup, hempty]
    rfl
  | succ fuel ih =>
    rw [flushReceived]
    cases hslot : s.reorder.lookup s.nextSeq with
    | none => exact ⟨s, rfl, h, .refl s, rfl, fun slot hsl => by rw [hslot] at hsl; cases hsl⟩
    | some slot =>
      have hok := h.buffer.slot _ _ hslot
      rw [if_pos rfl] at hok
      dsimp only
      cases hr : slot.received.lookup s.nextFileIndex with
      | none =>
        refine ⟨s, rfl, h, .refl s, rfl, fun slot' hsl => ?_⟩
        rw [hslot] at hsl
        cases hsl
        exact hr
      | some r =>
        obtain ⟨s₁, hw, hlog, hsame, -⟩ := writeOneFileInTx_spec hfails
          (h.logged.setSlot s.nextSeq (slot.without s.nextFileIndex)) (hok.own _ _ hr)
        have hseq : s₁.nextSeq = s.nextSeq := hsame.nextSeq
        have hidx : s₁.nextFileIndex = s.nextFileIndex := hsame.nextFileIndex
        obtain ⟨hbuf, hkeeps⟩ := h.buffer.advance hslot hr hsame
        have hmain : MainOk I T n (s₁.fileWritten (slot.without s.nextFileIndex)) := by
          refine ⟨hbuf, ?_⟩
          show Logged I T _ (s₁.nextFileIndex + 1)
          rw [hidx]
          exact hlog.fileWritten _
        obtain ⟨s', hrun, hmain', hkeeps', hseq', hnone⟩ := ih hmain fun slot' hslot' => by
          have hsl : some slot' = some
              { slot.without s.nextFileIndex with written := slot.written + 1 } :=
            hslot'.symm.trans (AList.lookup_insert _)
          cases hsl
          have hlen := hfuel slot hslot
          rw [← length_erase hr] at hlen
          exact Nat.le_of_succ_le_succ hlen
        refine ⟨s', ?_, hmain', hkeeps.trans hkeeps', hseq'.trans hseq, hnone⟩
        dsimp only
        rw [hw]
        exact hrun

/-- The files of a failed batch that were not written are written or reported. -/
theorem flushFailed_spec {slot : BatchSlot ρ}
    {seq m : ℕ} (hown : ∀ i r, slot.received.lookup i = some r → (I.batch seq)[i]? = some r.filePath)
    (hm : k + m ≤ (I.batch seq).length) (hseq : s.nextSeq = seq) (h : Logged I T s k)
    (hbegun : Begun I s) :
    ∃ s', flushFailed I slot (I.batch seq) (List.range' k m) s = (s', false) ∧
      Logged I T s' (k + m) ∧ SameBuffer s s' := by
  induction m generalizing s k with
  | zero => exact ⟨s, rfl, h, ⟨rfl, rfl, rfl⟩⟩
  | succ m ih =>
    rw [range'_succ, flushFailed]
    subst hseq
    cases hr : slot.received.lookup k with
    | some r =>
      obtain ⟨s₁, hw, hlog, hsame, hbegun₁⟩ := writeOneFileInTx_spec hfails h (hown k r hr)
      obtain ⟨s', hrun, hlog', hsame'⟩ := ih (by omega) hsame.nextSeq hlog hbegun₁
      refine ⟨s', ?_, by rwa [Nat.add_right_comm] at hlog', hsame.trans hsame'⟩
      dsimp only
      rw [hw]
      exact hrun
    | none =>
      have hk : k < (I.batch s.nextSeq).length := by omega
      have hpath : (I.batch s.nextSeq)[k]? = some (I.batch s.nextSeq)[k] :=
        getElem?_eq_getElem hk
      obtain ⟨s', hrun, hlog', hsame'⟩ := ih (s := s.report (I.batch s.nextSeq)[k] slot.failError)
        (by omega) rfl (h.report hbegun hpath) hbegun
      refine ⟨s', ?_, by rwa [Nat.add_right_comm] at hlog', ?_⟩
      · dsimp only
        rw [hpath]
        exact hrun
      · have hreport : SameBuffer s (s.report (I.batch s.nextSeq)[k] slot.failError) :=
          ⟨rfl, rfl, rfl⟩
        exact hreport.trans hsame'

/-! ## The whole flush -/

/-- A failed batch is dealt with as a whole. -/
theorem failedBatch_spec (h : MainOk I T n s)
    {slot : BatchSlot ρ} (hslot : s.reorder.lookup s.nextSeq = some slot)
    (hfailed : slot.failed = true) :
    ∃ s', flushFailed I slot (I.batch s.nextSeq)
        (List.range' slot.written (slot.expected - slot.written)) (s.beginTxIfNeeded I) =
          (s', false) ∧
      MainOk I T n s'.nextBatch ∧ Keeps s s'.nextBatch ∧ s'.nextSeq = s.nextSeq := by
  have hok := h.buffer.slot _ _ hslot
  rw [if_pos rfl] at hok
  have hsame₀ : SameBuffer s (s.beginTxIfNeeded I) := sameBuffer_begin
  have hlog₀ : Logged I T (s.beginTxIfNeeded I) slot.written := by
    rw [hok.written]
    exact h.logged.begin
  obtain ⟨s', hrun, hlog, hsame⟩ := flushFailed_spec (m := slot.expected - slot.written) hfails
    hok.own (by rw [← hok.expected]; have := hok.written_le; omega) hsame₀.nextSeq hlog₀ begun_begin
  have hall := hsame₀.trans hsame
  have hlen : slot.written + (slot.expected - slot.written) = (I.batch s'.nextSeq).length := by
    rw [hall.nextSeq, ← hok.expected]
    have := hok.written_le
    omega
  have hbuf : BufferOk I n s' := h.buffer.of_same hall
  obtain ⟨hbuf', hkeeps⟩ := hbuf.nextBatch
    (by rw [hall.nextSeq, hall.reorder]; exact hslot) (.inr hfailed)
  exact ⟨s', hrun, ⟨hbuf', hlog.nextBatch hlen⟩, (Keeps.of_reorder hall.reorder).trans hkeeps,
    hall.nextSeq⟩

/-- The outer loop. -/
theorem flushLoop_spec (fuel : ℕ)
    (h : MainOk I T n s) (hfuel : n - s.nextSeq ≤ fuel) :
    ∃ s', flushLoop I fuel s = (s', false) ∧ MainOk I T n s' ∧ Keeps s s' ∧ Quiescent s' := by
  induction fuel generalizing s with
  | zero =>
    refine ⟨s, rfl, h, .refl s, fun slot hslot => ?_⟩
    have := ((h.buffer.keys s.nextSeq).mp (by rw [hslot]; rfl)).2
    omega
  | succ fuel ih =>
    rw [flushLoop]
    cases hslot : s.reorder.lookup s.nextSeq with
    | none => exact ⟨s, rfl, h, .refl s, fun slot hsl => by rw [hslot] at hsl; cases hsl⟩
    | some slot =>
      dsimp only
      cases hfailed : slot.failed with
      | true =>
        obtain ⟨s₁, hrun₁, hmain₁, hkeeps₁, hseq₁⟩ := failedBatch_spec hfails h hslot hfailed
        obtain ⟨s', hrun, hmain, hkeeps, hquiet⟩ := ih hmain₁ (by
          show n - (s₁.nextSeq + 1) ≤ fuel
          omega)
        refine ⟨s', ?_, hmain, hkeeps₁.trans hkeeps, hquiet⟩
        rw [if_pos rfl, ← StreamingInput.batch, hrun₁]
        exact hrun
      | false =>
        obtain ⟨s₁, hrun₁, hmain₁, hkeeps₁, hseq₁, hnone⟩ := flushReceived_spec hfails
          slot.received.entries.length h fun slot' hslot' => by
            rw [hslot] at hslot'
            cases hslot'
            exact le_rfl
        rw [if_neg (by simp), hrun₁]
        dsimp only
        have hexp : slot.expected = (I.batch s₁.nextSeq).length := by
          rw [hseq₁]
          exact (h.buffer.slot _ _ hslot).expected
        have hsame : ∀ slot', s₁.reorder.lookup s₁.nextSeq = some slot' → SameBatch slot slot' := by
          intro slot' hslot'
          obtain ⟨slot₀, hslot₀, hbatch⟩ := hkeeps₁.origin _ _ hslot'
          rw [hseq₁, hslot] at hslot₀
          cases hslot₀
          exact hbatch
        split
        · -- the batch is done, and all its files have been written
          rename_i hover
          obtain ⟨slot', hslot'⟩ := Option.isSome_iff_exists.mp ((hmain₁.buffer.keys s₁.nextSeq).mpr
            ⟨le_rfl, by
              rw [hseq₁]
              exact ((h.buffer.keys s.nextSeq).mp (by rw [hslot]; rfl)).2⟩)
          have hok := hmain₁.buffer.slot _ _ hslot'
          rw [if_pos rfl] at hok
          have hidx : s₁.nextFileIndex = (I.batch s₁.nextSeq).length := by
            have hle := hok.written_le
            have := hok.written
            have := hok.expected
            omega
          obtain ⟨hbuf, hkeeps₂⟩ := hmain₁.buffer.nextBatch hslot'
            (.inl ((hsame slot' hslot').done.trans hover.1))
          obtain ⟨s', hrun, hmain, hkeeps, hquiet⟩ := ih ⟨hbuf, hmain₁.logged.nextBatch hidx⟩ (by
            show n - (s₁.nextSeq + 1) ≤ fuel
            omega)
          exact ⟨s', hrun, hmain, (hkeeps₁.trans hkeeps₂).trans hkeeps, hquiet⟩
        · rename_i hnot
          refine ⟨s₁, rfl, hmain₁, hkeeps₁, fun slot' hslot' => ?_⟩
          have hbatch := hsame slot' hslot'
          refine ⟨hbatch.failed.trans hfailed, hnone slot' hslot', fun hover => hnot ?_⟩
          refine ⟨hbatch.done.symm.trans hover.1, ?_⟩
          rw [hexp, ← (hmain₁.buffer.slot _ _ hslot').expected]
          exact hover.2

/-- **A flush deals with everything whose turn has come.** -/
theorem tryFlush_spec (h : MainOk I T n s) :
    ∃ s', tryFlush I s = (s', false) ∧ MainOk I T n s' ∧ Keeps s s' ∧ Quiescent s' :=
  flushLoop_spec hfails _ h h.buffer.fuel

end

end Streaming

end Ariad
