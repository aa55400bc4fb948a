import Ariad.Indexer.ExportLaws

/-!
# Exported names and the order of the rows

The tables list the exports of a file in the order of their ids, and star exports are followed in that order. What
is found does not depend on it.

* `starBranches_perm` — the star exports may be followed in any order.
* `FileExports.Alike` — export tables that differ in the order of their rows only.
* `resolveExportedSymbol_reordered` — the result is that of any other order of the rows.
-/

namespace Ariad.CrossFile

open List

/-! ## Star exports -/

namespace UnknownReason

theorem higher_comm (a b : UnknownReason) : a.higher b = b.higher a := by
  cases a <;> cases b <;> rfl

theorem higher_right_comm (a b c : UnknownReason) : (a.higher b).higher c = (a.higher c).higher b := by
  cases a <;> cases b <;> cases c <;> rfl

end UnknownReason

/-- Loops that know the same, with their targets in whatever order. -/
structure StarState.Alike (s s' : StarState) : Prop where
  targets : s.starTargets.Perm s'.starTargets
  ambiguous : s.hasAmbiguous = s'.hasAmbiguous
  unknown : s.unknownReason = s'.unknownReason

namespace StarState

variable {s s' : StarState}

theorem Alike.refl (s : StarState) : s.Alike s := ⟨.refl _, rfl, rfl⟩

theorem Alike.trans {s'' : StarState} (h : s.Alike s') (h' : s'.Alike s'') : s.Alike s'' :=
  ⟨h.targets.trans h'.targets, h.ambiguous.trans h'.ambiguous, h.unknown.trans h'.unknown⟩

theorem Alike.add (h : s.Alike s') (r : ResolutionResult) : (s.add r).Alike (s'.add r) := by
  obtain ⟨htargets, hambiguous, hunknown⟩ := h
  cases r with
  | resolved qn =>
    simp only [StarState.add, htargets.mem_iff]
    split
    · exact ⟨htargets, hambiguous, hunknown⟩
    · exact ⟨htargets.append_right _, hambiguous, hunknown⟩
  | missing => exact ⟨htargets, hambiguous, hunknown⟩
  | ambiguous => exact ⟨htargets, rfl, hunknown⟩
  | unknown reason =>
    refine ⟨htargets, hambiguous, ?_⟩
    simp only [StarState.add, hunknown]

/-- Two branches may be swapped. -/
theorem alike_add_comm (s : StarState) (r r' : ResolutionResult) : ((s.add r).add r').Alike ((s.add r').add r) := by
  cases r <;> cases r'
  case resolved.resolved qn qn' =>
    by_cases hsame : qn = qn'
    · exact hsame ▸ .refl _
    · have hsame' : qn' ≠ qn := Ne.symm hsame
      by_cases hqn : qn ∈ s.starTargets <;> by_cases hqn' : qn' ∈ s.starTargets
      all_goals simp only [StarState.add, hqn, hqn', if_true, if_false, mem_append, mem_singleton, hsame,
        hsame', or_false]
      all_goals first
        | exact .refl _
        | exact ⟨by simpa using (List.Perm.swap _ _ _).append_left _, rfl, rfl⟩
  case unknown.unknown reason reason' =>
    refine ⟨.refl _, rfl, ?_⟩
    cases hknown : s.unknownReason with
    | none => simp [StarState.add, hknown, UnknownReason.higher_comm reason]
    | some known => simp [StarState.add, hknown, UnknownReason.higher_right_comm known reason]
  -- what is left is a target beside something that is none
  all_goals first
    | exact .refl _
    | (rename_i qn
       by_cases hqn : qn ∈ s.starTargets <;> simp only [StarState.add, hqn, if_true, if_false] <;> exact .refl _)
    | (rename_i qn reason
       by_cases hqn : qn ∈ s.starTargets <;> simp only [StarState.add, hqn, if_true, if_false] <;> exact .refl _)

theorem Alike.result_eq (h : s.Alike s') : s.result = s'.result := by
  obtain ⟨htargets, hambiguous, hunknown⟩ := h
  rw [result, result, hambiguous, hunknown]
  cases htarget : s.starTargets with
  | nil =>
    rw [htarget, nil_perm] at htargets
    rw [htargets]
  | cons qn rest =>
    rw [htarget] at htargets
    cases rest with
    | nil => rw [perm_singleton.mp htargets.symm]
    | cons qn' rest =>
      have hlength := htargets.length_eq
      cases htarget' : s'.starTargets with
      | nil => simp [htarget'] at hlength
      | cons a more =>
        cases more with
        | nil => simp [htarget'] at hlength
        | cons b more => rfl

end StarState

variable {resolveModule : Text → Option Text} {branch : Text → ResolutionResult}

theorem alike_addSource {s s' : StarState} (h : s.Alike s') (source : Text) :
    (s.addSource resolveModule branch source).Alike (s'.addSource resolveModule branch source) := by
  rw [StarState.addSource, StarState.addSource]
  split
  · exact h.add _
  · exact h.add _

theorem alike_addSource_comm (s : StarState) (source source' : Text) :
    ((s.addSource resolveModule branch source).addSource resolveModule branch source').Alike
      ((s.addSource resolveModule branch source').addSource resolveModule branch source) := by
  cases h : resolveModule source <;> cases h' : resolveModule source' <;> simp only [StarState.addSource, h, h'] <;>
    exact s.alike_add_comm _ _

theorem alike_foldl {stars stars' : List Text} (hperm : stars.Perm stars') {s s' : StarState} (h : s.Alike s') :
    (stars.foldl (StarState.addSource resolveModule branch) s).Alike
      (stars'.foldl (StarState.addSource resolveModule branch) s') := by
  induction hperm generalizing s s' with
  | nil => exact h
  | cons source _ ih => exact ih (alike_addSource h source)
  | swap source source' stars =>
    have hsame (stars : List Text) : ∀ {s s' : StarState}, s.Alike s' →
        (stars.foldl (StarState.addSource resolveModule branch) s).Alike
          (stars.foldl (StarState.addSource resolveModule branch) s') := by
      induction stars with
      | nil => exact id
      | cons source _ ih => exact fun h => ih (alike_addSource h source)
    exact hsame stars ((alike_addSource (alike_addSource h _) _).trans (alike_addSource_comm s' _ _))
  | trans _ _ ih ih' => exact (ih h).trans (ih' (.refl _))

/-- **The star exports may be followed in any order.** -/
theorem starBranches_perm {stars stars' : List Text} (hperm : stars.Perm stars') :
    starBranches resolveModule branch stars = starBranches resolveModule branch stars' :=
  (alike_foldl hperm (.refl _)).result_eq

/-! ## Export tables -/

/-- What the table of a file holds, valid or not. -/
structure Tabulates (rows : List ExportRow) (fileExp : FileExports) : Prop where
  named : ∀ name, fileExp.named.get name =
    if bindingRows rows name = [] then none else some ((bindingRows rows name).map NamedBinding.ofRow)
  stars : fileExp.stars = rows.filterMap starSource
  valid : fileExp.fileInvalidReason = none ↔ ∀ name, (bindingRows rows name).length ≤ 1
  reason : ∀ reason, fileExp.fileInvalidReason = some reason → reason = .invalid_duplicate_export

theorem bindingRows_concat (rows : List ExportRow) (e : ExportRow) (name : Text) :
    bindingRows (rows ++ [e]) name =
      bindingRows rows name ++ if e.exportKind ≠ .star_re_export ∧ e.exportedName = name then [e] else [] := by
  rw [bindingRows, filter_append, ← bindingRows]
  by_cases h : e.exportKind ≠ .star_re_export ∧ e.exportedName = name
  · rw [if_pos h, filter_cons_of_pos (by simpa using h), filter_nil]
  · rw [if_neg h, filter_cons_of_neg (by simpa using h), filter_nil]

theorem tabulates_addRow {rows : List ExportRow} {fileExp : FileExports} (h : Tabulates rows fileExp) (e : ExportRow) :
    Tabulates (rows ++ [e]) (fileExp.addRow e) := by
  rw [FileExports.addRow]
  by_cases hstar : e.exportKind = .star_re_export
  · rw [if_pos hstar]
    have hrows (name : Text) : bindingRows (rows ++ [e]) name = bindingRows rows name := by
      rw [bindingRows_concat, if_neg (by simp [hstar]), append_nil]
    have hstars : (rows ++ [e]).filterMap starSource = fileExp.stars ++ (truthy e.sourceModule).toList := by
      rw [filterMap_append, h.stars]
      cases hsource : truthy e.sourceModule <;> simp [starSource, hstar, hsource]
    cases hsource : truthy e.sourceModule with
    | none =>
      rw [hsource, Option.toList_none, append_nil] at hstars
      exact ⟨fun name => by rw [hrows, h.named], hstars.symm, by simp only [hrows, h.valid], h.reason⟩
    | some source =>
      rw [hsource, Option.toList_some] at hstars
      exact ⟨fun name => by rw [hrows, h.named], hstars.symm, by simp only [hrows, h.valid], h.reason⟩
  · rw [if_neg hstar]
    have hself : bindingRows (rows ++ [e]) e.exportedName = bindingRows rows e.exportedName ++ [e] := by
      rw [bindingRows_concat, if_pos ⟨hstar, rfl⟩]
    have hother {name : Text} (hname : name ≠ e.exportedName) :
        bindingRows (rows ++ [e]) name = bindingRows rows name := by
      rw [bindingRows_concat, if_neg fun hand => hname hand.2.symm, append_nil]
    have hstars : fileExp.stars = (rows ++ [e]).filterMap starSource := by
      rw [filterMap_append, h.stars]
      simp [starSource, hstar]
    have hnamed (name : Text) (bindings : List NamedBinding)
        (hbindings : bindings = (bindingRows rows e.exportedName ++ [e]).map NamedBinding.ofRow) :
        (fileExp.named.set e.exportedName bindings).get name = if bindingRows (rows ++ [e]) name = [] then none
          else some ((bindingRows (rows ++ [e]) name).map NamedBinding.ofRow) := by
      by_cases hname : name = e.exportedName
      · subst hname
        rw [OrderedMap.get_set_self, hself, if_neg (by simp), hbindings]
      · rw [OrderedMap.get_set_of_ne hname, h.named, hother hname]
    have hget := h.named e.exportedName
    by_cases hnone : bindingRows rows e.exportedName = []
    · rw [if_pos hnone] at hget
      simp only [hget]
      refine ⟨fun name => hnamed name _ (by rw [hnone]; rfl), hstars, ?_, h.reason⟩
      rw [h.valid]
      refine forall_congr' fun name => ?_
      by_cases hname : name = e.exportedName
      · subst hname
        simp [hself, hnone]
      · rw [hother hname]
    · rw [if_neg hnone] at hget
      simp only [hget]
      refine ⟨fun name => hnamed name _ (by rw [map_append]; rfl), hstars, ?_, fun _ hr => (Option.some.inj hr).symm⟩
      have hlength : 1 < (bindingRows (rows ++ [e]) e.exportedName).length := by
        have := length_pos_iff.mpr hnone
        rw [hself, length_append, length_singleton]
        omega
      simp only [reduceCtorEq, false_iff, not_forall, not_le]
      exact ⟨_, hlength⟩

theorem tabulates_foldl (rows : List ExportRow) : Tabulates rows (rows.foldl FileExports.addRow .empty) := by
  induction rows using List.reverseRecOn with
  | nil => exact ⟨fun name => rfl, rfl, by simp [FileExports.empty, bindingRows], nofun⟩
  | append_singleton rows e ih =>
    rw [foldl_append, foldl_cons, foldl_nil]
    exact tabulates_addRow ih e

/-- Tables of the same rows in another order. -/
structure FileExports.Alike (fileExp fileExp' : FileExports) : Prop where
  reason : fileExp.fileInvalidReason = fileExp'.fileInvalidReason
  stars : fileExp.stars.Perm fileExp'.stars
  has : ∀ name, fileExp.named.has name = fileExp'.named.has name
  named : fileExp.fileInvalidReason = none → ∀ name, fileExp.named.get name = fileExp'.named.get name

namespace FileExports

variable {fileExp fileExp' : FileExports}

theorem Alike.refl (fileExp : FileExports) : fileExp.Alike fileExp := ⟨rfl, .refl _, fun _ => rfl, fun _ _ => rfl⟩

theorem Alike.invalidate (h : fileExp.Alike fileExp') (reason : UnknownReason) :
    (fileExp.invalidate reason).Alike (fileExp'.invalidate reason) :=
  ⟨by rw [FileExports.invalidate, FileExports.invalidate, h.reason], h.stars, h.has, nofun⟩

end FileExports

theorem alike_foldl_addRow {rows rows' : List ExportRow} (h : rows.Perm rows') :
    (rows.foldl FileExports.addRow .empty).Alike (rows'.foldl FileExports.addRow .empty) := by
  have htab := tabulates_foldl rows
  have htab' := tabulates_foldl rows'
  have hbindings (name : Text) : (bindingRows rows name).Perm (bindingRows rows' name) := h.filter _
  have hvalid : (rows.foldl FileExports.addRow .empty).fileInvalidReason = none ↔
      (rows'.foldl FileExports.addRow .empty).fileInvalidReason = none := by
    rw [htab.valid, htab'.valid]
    exact forall_congr' fun name => by rw [(hbindings name).length_eq]
  refine ⟨?_, ?_, fun name => ?_, fun hnone name => ?_⟩
  · cases hreason : (rows.foldl FileExports.addRow .empty).fileInvalidReason with
    | none => rw [hvalid.mp hreason]
    | some reason =>
      cases hreason' : (rows'.foldl FileExports.addRow .empty).fileInvalidReason with
      | none => rw [hvalid.mpr hreason'] at hreason; cases hreason
      | some reason' => rw [htab.reason _ hreason, htab'.reason _ hreason']
  · rw [htab.stars, htab'.stars]
    exact h.filterMap _
  · have hempty : bindingRows rows name = [] ↔ bindingRows rows' name = [] := by
      rw [← length_eq_zero_iff, (hbindings name).length_eq, length_eq_zero_iff]
    rw [OrderedMap.has, OrderedMap.has, htab.named, htab'.named]
    by_cases hnil : bindingRows rows name = []
    · rw [if_pos hnil, if_pos (hempty.mp hnil)]
    · rw [if_neg hnil, if_neg (hnil ∘ hempty.mpr)]
      rfl
  · have hone := htab.valid.mp hnone name
    have hsame : bindingRows rows name = bindingRows rows' name := by
      cases hrow : bindingRows rows name with
      | nil => exact (nil_perm.mp (hrow ▸ hbindings name)).symm
      | cons e rest =>
        rw [hrow, length_cons] at hone
        obtain rfl : rest = [] := eq_nil_of_length_eq_zero (by omega)
        exact singleton_perm.mp (hrow ▸ hbindings name)
    rw [htab.named, htab'.named, hsame]

/-! ## Tables in another order -/

/-- A row that says what the default export of its file is. -/
def IsMarker (i : ImportRow) : Prop :=
  i.importKind = .default_export ∧ i.localName = "__default_export__".toList

namespace ModuleTables

/-- The writers give a file one marker at most: two markers of a file are the same row. -/
def OneMarker (t : ModuleTables) : Prop :=
  ∀ i ∈ t.imports, ∀ j ∈ t.imports, IsMarker i → IsMarker j → i.filePath = j.filePath → i = j

/-- The same tables, with the rows of `imports` and `exports` in another order. -/
structure Reordered (t t' : ModuleTables) : Prop where
  nodes : t.nodes = t'.nodes
  imports : t.imports.Perm t'.imports
  exports : t.exports.Perm t'.exports
  isBuiltin : t.isBuiltin = t'.isBuiltin

variable {t t' : ModuleTables}

section

variable (h : t.Reordered t')
include h

theorem resolveModulePath_reordered (source file : Text) :
    t.resolveModulePath source file = t'.resolveModulePath source file := by
  have hknown : t.knownFile = t'.knownFile := funext fun candidate => by rw [knownFile, knownFile, h.nodes]
  rw [resolveModulePath, resolveModulePath, hknown]

theorem fileSymbol_reordered (file name : Text) : t.fileSymbol file name = t'.fileSymbol file name := by
  rw [fileSymbol, fileSymbol, h.nodes]

/-- With one marker the last one is the only one. -/
theorem defaultExport_reordered (hone : t.OneMarker) (file : Text) :
    t.defaultExport file = t'.defaultExport file := by
  have hperm := h.imports.filter fun i => decide (i.filePath = file ∧ i.importKind = .default_export ∧
    i.localName = "__default_export__".toList)
  rw [defaultExport, defaultExport]
  congr 1
  cases hlast : (t.imports.filter fun i => i.filePath = file ∧ i.importKind = .default_export ∧
      i.localName = "__default_export__".toList).getLast? with
  | none =>
    rw [getLast?_eq_none_iff] at hlast
    rw [hlast] at hperm
    rw [nil_perm.mp hperm]
    rfl
  | some i =>
    obtain ⟨hi, hmarker⟩ := mem_filter.mp (mem_of_getLast? hlast)
    have hmarker := of_decide_eq_true hmarker
    cases hlast' : (t'.imports.filter fun i => i.filePath = file ∧ i.importKind = .default_export ∧
        i.localName = "__default_export__".toList).getLast? with
    | none =>
      rw [getLast?_eq_none_iff] at hlast'
      rw [hlast', perm_nil] at hperm
      rw [hperm] at hlast
      cases hlast
    | some j =>
      obtain ⟨hj, hmarker'⟩ := mem_filter.mp (mem_of_getLast? hlast')
      have hmarker' := of_decide_eq_true hmarker'
      exact congrArg some (hone i hi j (h.imports.mem_iff.mpr hj) hmarker.2 hmarker'.2 (hmarker.1.trans hmarker'.1.symm))

theorem exportRows_reordered (file : Text) :
    Option.Rel FileExports.Alike (t.exportRows file) (t'.exportRows file) := by
  have hperm := h.exports.filter fun e => decide (e.filePath = file)
  rw [exportRows, exportRows]
  cases hrows : t.exports.filter fun e => e.filePath = file with
  | nil =>
    rw [hrows, nil_perm] at hperm
    rw [hperm]
    exact .none
  | cons e rest =>
    cases hrows' : t'.exports.filter fun e => e.filePath = file with
    | nil =>
      rw [hrows', hrows, perm_nil] at hperm
      cases hperm
    | cons e' rest' => exact .some (alike_foldl_addRow (hrows ▸ hrows' ▸ hperm))

theorem checkDefault_reordered (hone : t.OneMarker) (file : Text) {o o' : Option FileExports}
    (halike : Option.Rel FileExports.Alike o o') :
    Option.Rel FileExports.Alike (t.checkDefault file o) (t'.checkDefault file o') := by
  rw [checkDefault, checkDefault, ← defaultExport_reordered h hone]
  cases t.defaultExport file with
  | none => exact halike
  | some defaultInfo =>
    dsimp only
    split
    · cases halike with
      | some halike => exact .some (halike.invalidate _)
      | none => exact .some (.refl _)
    · split
      · cases halike with
        | none => exact .none
        | @some fileExp fileExp' halike =>
          refine .some ?_
          dsimp only
          rw [← halike.has]
          split
          · exact halike.invalidate _
          · exact halike
      · exact halike

theorem checkStars_reordered (file : Text) {fileExp fileExp' : FileExports}
    (halike : fileExp.Alike fileExp') : (t.checkStars file fileExp).Alike (t'.checkStars file fileExp') := by
  have hunresolved : t.starUnresolved file = t'.starUnresolved file := funext fun source => by
    rw [starUnresolved, starUnresolved, resolveModulePath_reordered h, h.isBuiltin]
  have hany : fileExp.stars.any (t.starUnresolved file) = fileExp'.stars.any (t'.starUnresolved file) := by
    rw [hunresolved]
    exact halike.stars.any_eq
  rw [checkStars, checkStars, ← hany]
  split
  · exact halike.invalidate _
  · exact halike

/-- The tables of a file, whatever the order. -/
theorem fileExports_reordered (hone : t.OneMarker) (file : Text) :
    Option.Rel FileExports.Alike (t.fileExports file) (t'.fileExports file) := by
  have halike := checkDefault_reordered h hone file (exportRows_reordered h file)
  rw [fileExports, fileExports]
  generalize t.checkDefault file (t.exportRows file) = o at halike
  generalize t'.checkDefault file (t'.exportRows file) = o' at halike
  cases halike with
  | none => exact .none
  | some halike => exact .some (checkStars_reordered h file halike)

end

end ModuleTables

end Ariad.CrossFile
