import Ariad.Concurrency.Sequence
import Ariad.Indexer.Run

/-!
# Rules for index runs

The rules of `Proc.Holds` for the program of an index run: one for each construct, and one for each
kind of operation. The exceptional postcondition is about the world alone, since nothing is raised but
`IndexFault.failed`.
-/

namespace Ariad

variable {φ χ δ α β : Type} [DecidableEq φ]

namespace IndexM

section

variable (X : Extractor φ χ δ) (A : IndexOp φ χ δ → IndexChoice χ → IndexWorld φ χ δ → Prop)
  (I : IndexWorld φ χ δ → Prop)

/-- `I` holds before every operation; a value is returned with `Q`, and raised is with `E`. -/
def Holds (m : IndexM φ χ δ α) (Q : α → IndexWorld φ χ δ → Prop) (E : IndexWorld φ χ δ → Prop)
    (w : IndexWorld φ χ δ) : Prop :=
  Proc.Holds (indexMachine X) 0 A I m (fun a _ w => Q a w) (fun _ _ w => E w) ⟨⟩ w

end

variable {X : Extractor φ χ δ} {A : IndexOp φ χ δ → IndexChoice χ → IndexWorld φ χ δ → Prop}
  {I : IndexWorld φ χ δ → Prop} {m : IndexM φ χ δ α} {f : α → IndexM φ χ δ β}
  {Q Q' : α → IndexWorld φ χ δ → Prop} {R : β → IndexWorld φ χ δ → Prop}
  {E E' : IndexWorld φ χ δ → Prop} {w : IndexWorld φ χ δ}

theorem Holds.mono (h : m.Holds X A I Q E w) (hQ : ∀ a w, Q a w → Q' a w) (hE : ∀ w, E w → E' w) :
    m.Holds X A I Q' E' w :=
  Proc.Holds.mono h (fun a _ w => hQ a w) (fun _ _ w => hE w)

theorem Holds.pure {a : α} (h : Q a w) : (Pure.pure a : IndexM φ χ δ α).Holds X A I Q E w := h

theorem Holds.bind (h : m.Holds X A I (fun a w => (f a).Holds X A I R E w) E w) :
    IndexM.Holds X A I (m >>= f) R E w := Proc.Holds.bind h

theorem Holds.attempt {R : Except IndexFault α → IndexWorld φ χ δ → Prop}
    (h : m.Holds X A I (fun a => R (.ok a)) (R (.error .failed)) w) :
    IndexM.Holds X A I (Proc.attempt m) R E w :=
  Proc.Holds.attempt (Proc.Holds.mono h (fun _ _ _ h => h) (fun e _ _ h => by cases e; exact h))

theorem Holds.tryCatch {handler : IndexFault → IndexM φ χ δ α}
    (h : m.Holds X A I Q ((handler .failed).Holds X A I Q E) w) :
    IndexM.Holds X A I (MonadExcept.tryCatch m handler) Q E w :=
  Proc.Holds.tryCatch (Proc.Holds.mono h (fun _ _ _ h => h) (fun e _ _ h => by cases e; exact h))

/-- **The rule for one operation**: files are written, and then it fails or does what it does. -/
theorem Holds.perform {o : IndexOp φ χ δ} {Q : o.Val → IndexWorld φ χ δ → Prop} (hI : I w)
    (hfails : ∀ ch, A o ch w → ch.fails = true → E (w.edited ch.writes))
    (hruns : ∀ ch, A o ch w → ch.fails = false → match o.run X ch (w.edited ch.writes) with
      | (.ok v, w') => Q v w'
      | (.error _, w') => E w') :
    (perform o).Holds X A I Q E w := by
  refine Proc.Holds.perform hI fun ch hch => ?_
  dsimp only [indexMachine, IndexOp.exec]
  split
  · rename_i v w' heq
    split at heq
    · cases heq
    · rename_i hf
      have hpost := hruns ch hch (Bool.eq_false_iff.mpr hf)
      rwa [heq] at hpost
  · rename_i e w' heq
    split at heq
    · rename_i hf
      cases heq
      exact hfails ch hch hf
    · rename_i hf
      have hpost := hruns ch hch (Bool.eq_false_iff.mpr hf)
      rwa [heq] at hpost

/-- Reading changes no database. -/
theorem Holds.query {r : DbRead φ} {Q : r.Val φ δ → IndexWorld φ χ δ → Prop} (hI : I w)
    (hfails : ∀ ch, A (.read r) ch w → ch.fails = true → E (w.edited ch.writes))
    (hruns : ∀ ch, A (.read r) ch w → ch.fails = false →
      Q (r.run w.db) (w.edited ch.writes)) :
    (query r).Holds X A I Q E w :=
  Holds.perform hI hfails hruns

/-- A statement or a transaction that writes. -/
theorem Holds.execute {u : DbWrite φ χ δ} {Q : Bool → IndexWorld φ χ δ → Prop} (hI : I w)
    (hfails : ∀ ch, A (.write u) ch w → ch.fails = true → E (w.edited ch.writes))
    (hruns : ∀ ch, A (.write u) ch w → ch.fails = false →
      Q (u.run X w.db).2 { w.edited ch.writes with db := (u.run X w.db).1 }) :
    (execute u).Holds X A I Q E w :=
  Holds.perform hI hfails hruns

theorem Holds.and {I' : IndexWorld φ χ δ → Prop} (h : m.Holds X A I Q E w)
    (h' : m.Holds X A I' Q' E' w) :
    m.Holds X A I (fun a w => Q a w ∧ Q' a w) (fun w => E w ∧ E' w) w := by
  refine Prog.Throughout.mono ((Prog.Throughout.and h h').weaken fun _ h => h.1) ?_
  rintro ⟨e | a, l⟩ w' hx
  · exact hx
  · exact hx

omit [DecidableEq φ] in
theorem forEach_pure {f : α → IndexM φ χ δ β} {g : α → β} (h : ∀ a, f a = Pure.pure (g a))
    (as : List α) : IndexM.forEach f as = Pure.pure (as.map g) := by
  induction as with
  | nil => rfl
  | cons a as ih =>
    rw [IndexM.forEach, h, ih]
    rfl

/-- Nothing is known of the state, and nothing needs to be. -/
theorem holds_any (m : IndexM φ χ δ α) :
    m.Holds X A (fun _ => True) (fun _ _ => True) (fun _ => True) w := by
  refine Prog.Throughout.mono (Prog.Throughout.preserved (I := fun _ => True) (m ⟨⟩) trivial
    fun _ _ _ _ _ => trivial) ?_
  rintro ⟨e | a, l⟩ w' -
  · trivial
  · trivial

/-- What follows a procedure of which nothing needs to be known. -/
theorem Holds.after (h : ∀ a w, (f a).Holds X A (fun _ => True) R (fun _ => True) w) :
    IndexM.Holds X A (fun _ => True) (m >>= f) R (fun _ => True) w :=
  Holds.bind ((holds_any m).mono (fun a w _ => h a w) fun _ h => h)

/-- The run returned. -/
theorem eq_ok_of_toOption {x : Except IndexFault α × PUnit} {a : α} (h : x.1.toOption = some a) :
    x = (.ok a, ⟨⟩) := by
  obtain ⟨e | b, l⟩ := x
  · cases h
  · cases h
    rfl

end IndexM

end Ariad
