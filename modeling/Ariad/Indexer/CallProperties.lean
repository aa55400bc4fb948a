import Ariad.Indexer.FastWalker
import Ariad.Javascript.JsonText

/-!
# The properties of call edges

The properties of an edge are put together from texts, and the callee is put between the quotes as it stands in the
source.

* `callProperties_members` — the text, member by member.
* `hasString_callProperties` — it gives the callee back exactly if nothing in the callee has to be escaped.
-/

namespace Ariad.FastWalker

open CrossFile JsonText List

/-- The members behind the callee. -/
def otherMembers (candidateIndex : ℕ) : Text :=
  '"' :: ("inferred".toList ++ '"' :: ':' :: ('t' :: 'r' :: 'u' :: 'e' :: ',' ::
    '"' :: ("candidate_index".toList ++ '"' :: ':' :: (Nat.toDigits 10 candidateIndex ++ ',' ::
      '"' :: ("resolution".toList ++ '"' :: ':' :: ('"' :: ("intra_file".toList ++ '"' :: ['\x7d'])))))))

variable {calleeName : Text}

theorem callProperties_members (calleeName : Text) (candidateIndex : ℕ) : callProperties calleeName candidateIndex =
      '\x7b' :: '"' :: ("callee".toList ++ '"' :: ':' :: ('"' :: (calleeName ++ '"' :: ',' ::
        otherMembers candidateIndex))) := by
  have hopen : "\x7b\"callee\":\"".toList = '\x7b' :: '"' :: ("callee".toList ++ '"' :: ':' :: ['"']) := by decide
  have hmiddle : "\",\"inferred\":true,\"candidate_index\":".toList = '"' :: ',' :: '"' :: ("inferred".toList ++
      '"' :: ':' :: ('t' :: 'r' :: 'u' :: 'e' :: ',' :: '"' :: ("candidate_index".toList ++ '"' :: [':']))) := by decide
  have hclose : ",\"resolution\":\"intra_file\"\x7d".toList = ',' :: '"' :: ("resolution".toList ++
      '"' :: ':' :: ('"' :: ("intra_file".toList ++ '"' :: ['\x7d']))) := by decide
  have hstart := congrArg₂ (fun opening middle => opening ++ calleeName ++ middle) hopen hmiddle
  have hparts := congrArg₂ (fun start close => start ++ Nat.toDigits 10 candidateIndex ++ close) hstart hclose
  refine hparts.trans ?_
  simp [otherMembers]

theorem slash_notMem_digits (n : ℕ) : '\\' ∉ Nat.toDigits 10 n := by
  intro hmem
  have hdigit : ('\\' : Char).isDigit = true := Nat.isDigit_of_mem_toDigits (by decide) (by decide) hmem
  exact absurd hdigit (by decide)

theorem count_otherMembers (n : ℕ) : (otherMembers n).count '\\' = 0 := by
  have hdigits : (Nat.toDigits 10 n).count '\\' = 0 := count_eq_zero.mpr (slash_notMem_digits n)
  simp only [otherMembers, count_append, count_cons, hdigits]
  decide

theorem reads_otherMembers (n : ℕ) : Reads (otherMembers n) (.members [(units "inferred".toList, .bool true),
    (units "candidate_index".toList, .number (Nat.toDigits 10 n)),
    (units "resolution".toList, .string (units "intra_file".toList))]) [] := by
  have hinferred : Plain "inferred".toList := by decide
  have hindex : Plain "candidate_index".toList := by decide
  have hresolution : Plain "resolution".toList := by decide
  have hfile : Plain "intra_file".toList := by decide
  refine .compactMember hinferred .true_ (.compactMember hindex (.nat n ?_) ?_)
  · intro c hc
    obtain rfl := Option.some.inj hc
    rfl
  · exact .compactLast hresolution (.plain hfile _)

/-- A callee with nothing to escape is given back. -/
theorem hasString_of_plain (h : Plain calleeName) (n : ℕ) :
    HasString (callProperties calleeName n) "callee".toList calleeName := by
  have hcallee : Plain "callee".toList := by decide
  have hreads := Reads.object (Reads.compactMember hcallee (.plain h _) (reads_otherMembers n))
  rw [← callProperties_members] at hreads
  refine ⟨_, ⟨[], hreads, fun c hc => absurd hc not_mem_nil⟩, ?_⟩
  have hkeys : units "inferred".toList ≠ units "callee".toList ∧
      units "candidate_index".toList ≠ units "callee".toList ∧
      units "resolution".toList ≠ units "callee".toList := by decide
  simp only [Value.member, filter_cons, hkeys.1, hkeys.2.1, hkeys.2.2]
  rfl

/-- What is given back is a member of an object. -/
theorem members_of_hasString {t key s : Text} (h : HasString ('\x7b' :: t) key s) : ∃ ms r, Reads t (.members ms) r ∧
      ((ms.filter fun m => m.1 = units key).getLast?.map Prod.snd) = some (.string (units s)) := by
  obtain ⟨v, ⟨r, hreads, -⟩, hmember⟩ := h
  rcases hreads.object_inv with rfl | ⟨ms, rfl, hms⟩
  · cases hmember
  · exact ⟨ms, r, hms, hmember⟩

theorem mem_of_member {ms : List (List ℕ × Value)} {key : List ℕ} {v : Value}
    (h : ((ms.filter fun m => m.1 = key).getLast?.map Prod.snd) = some v) : (key, v) ∈ ms := by
  obtain ⟨⟨k, w⟩, hlast, rfl⟩ := Option.map_eq_some_iff.mp h
  obtain ⟨hmem, hkey⟩ := mem_filter.mp (mem_of_getLast? hlast)
  obtain rfl : k = key := of_decide_eq_true hkey
  exact hmem

theorem countP_le_of_subset {α : Type*} {p q : α → Bool} {l : List α} (hqp : ∀ x ∈ l, q x = true → p x = true)
    (hle : l.countP p ≤ l.countP q) : ∀ x ∈ l, p x = true → q x = true := by
  induction l with
  | nil => exact fun x hx => absurd hx not_mem_nil
  | cons y l ih =>
    have hmono : l.countP q ≤ l.countP p := countP_mono_left fun x hx => hqp x (mem_cons_of_mem _ hx)
    have hy := hqp y mem_cons_self
    rw [countP_cons, countP_cons] at hle
    intro x hx hp
    rcases mem_cons.mp hx with rfl | hx
    · by_contra hq
      rw [if_pos hp, if_neg hq] at hle
      omega
    · refine ih (fun z hz => hqp z (mem_cons_of_mem _ hz)) ?_ x hx hp
      cases hqy : q y with
      | true =>
        rw [if_pos (hy hqy), if_pos hqy] at hle
        omega
      | false =>
        rw [hqy, if_neg (c := false = true) Bool.false_ne_true] at hle
        split at hle <;> omega

/-- If a callee is given back, it has no quotes and no control characters: those need backslashes before them, which
would have to be given back too. -/
theorem slash_of_needsEscape {n : ℕ} (h : HasString (callProperties calleeName n) "callee".toList calleeName) :
    ∀ c ∈ calleeName, needsEscape c.toNat = true → c = '\\' := by
  rw [callProperties_members] at h
  obtain ⟨ms, r, hms, hmember⟩ := members_of_hasString h
  have hbound := hms.escapes_le.2 _ (mem_of_member hmember) _ rfl
  rw [countP_units] at hbound
  have hcount : ('"' :: ("callee".toList ++ '"' :: ':' :: '"' :: (calleeName ++ '"' :: ',' :: otherMembers n))).count
      '\\' = calleeName.count '\\' := by
    simp [count_append, count_otherMembers]
  rw [hcount, List.count] at hbound
  have hslash : ∀ c ∈ calleeName, (c == '\\') = true → needsEscape c.toNat = true := by
    rintro c - hc
    rw [beq_iff_eq.mp hc]
    rfl
  intro c hc hescape
  exact beq_iff_eq.mp (countP_le_of_subset hslash hbound c hc hescape)

/-- A backslash is not given back: it makes what is read shorter, or it takes the closing quote away, and then no comma
follows. -/
theorem slash_notMem {n : ℕ} (hquote : '"' ∉ calleeName)
    (h : HasString (callProperties calleeName n) "callee".toList calleeName) : '\\' ∉ calleeName := by
  intro hmem
  rw [callProperties_members] at h
  obtain ⟨ms, r, hms, hmember⟩ := members_of_hasString h
  obtain ⟨k, s, t', v, s', rest, hkey, hspace, hv, hspace', hrest⟩ := hms.members_inv
  have hcallee : Plain "callee".toList := by decide
  rw [stringUnits_plain hcallee] at hkey
  obtain ⟨rfl, hbehind⟩ := Prod.mk.inj (Option.some.inj hkey)
  obtain ⟨-, rfl⟩ := space_append hspace rfl hbehind.symm
  obtain ⟨us, rfl, hus⟩ := hv.string_inv
  -- What stands behind the value is a comma or a brace.
  have hnext : ∀ d t, isJsonSpace d = false → s' ++ rest = d :: t → d = ',' ∨ d = '\x7d' := by
    intro d t hd heq
    rcases hrest with ⟨rfl, -⟩ | ⟨t'', ms', rfl, -⟩
    · exact .inr (space_append hspace' hd heq).1.symm
    · exact .inl (space_append hspace' hd heq).1.symm
  rcases stringUnits_unquoted hquote hus with ⟨hr, -, hlt⟩ | ⟨us', hpast⟩
  · have hshort : units calleeName ≠ us := fun heq => absurd (hlt hmem) (by rw [heq]; exact lt_irrefl _)
    have hin := mem_of_member hmember
    rcases hrest with ⟨rfl, -⟩ | ⟨t'', ms', rfl, hms', rfl⟩
    · obtain ⟨hbad, -⟩ := space_append hspace' (d := ',') rfl hr
      cases hbad
    · obtain ⟨-, rfl⟩ := space_append hspace' (d := ',') rfl hr
      rcases mem_cons.mp hin with heq | hin
      · exact hshort (Value.string.inj (Prod.mk.inj heq).2)
      · have hbound := hms'.escapes_le.2 _ hin _ rfl
        rw [count_otherMembers, countP_units] at hbound
        have hnone := countP_eq_zero.mp (Nat.le_zero.mp hbound) '\\' hmem
        exact hnone rfl
  · have hcomma : Plain [','] := by decide
    have hswallowed := stringUnits_plain hcomma
    rw [otherMembers] at hpast
    rw [show ',' :: '"' :: ("inferred".toList ++ _) = [','] ++ '"' :: ("inferred".toList ++ _) from rfl,
      hswallowed] at hpast
    obtain ⟨-, heq⟩ := Prod.mk.inj (Option.some.inj hpast)
    rcases hnext 'i' _ rfl heq.symm with hbad | hbad
    · cases hbad
    · cases hbad

/-- **A callee is given back exactly if nothing in it has to be escaped.** -/
theorem hasString_callProperties {n : ℕ} :
    HasString (callProperties calleeName n) "callee".toList calleeName ↔ Plain calleeName := by
  constructor
  · intro h
    have hslash := slash_of_needsEscape h
    have hquote : '"' ∉ calleeName := fun hmem => absurd (hslash _ hmem rfl) (by decide)
    have hnone := slash_notMem hquote h
    intro c hc
    by_contra hescape
    obtain rfl := hslash c hc (by simpa using hescape)
    exact hnone hc
  · exact fun h => hasString_of_plain h n

/-- An edge of a call has the callee and a number in its properties. -/
theorem properties_of_mem {decls : List Declared} {x : Place} {funcNode : TSNode} {e : FastEdge}
    (hf : x.node.childForFieldName "function".toList = some funcNode) (he : e ∈ callEdges decls x) :
    ∃ n, e.properties = callProperties funcNode.text n := by
  rw [callEdges, callOf, hf, Option.bind_some] at he
  cases hsource : findEnclosingDeclQnFast x.parents decls with
  | none =>
    rw [hsource] at he
    exact absurd he not_mem_nil
  | some sourceQn =>
    rw [hsource, Option.map_some] at he
    obtain ⟨candidate, -, hedge⟩ := mem_filterMap.mp he
    split at hedge
    · cases hedge
    · obtain rfl := Option.some.inj hedge
      exact ⟨candidate.2, rfl⟩

theorem callEdges_mem_extractFast {tree : SyntaxTree} {fileQn : Text} {x : Place} {e : FastEdge}
    (hx : x ∈ tree.descendantsOfType callTypes) (he : e ∈ callEdges (extractDecls tree fileQn).decls x)
    (relPath : Text) (sourceLength : ℕ) : e ∈ (extractFast tree relPath fileQn sourceLength).edges :=
  mem_append_right _ (mem_flatMap.mpr ⟨x, hx, he⟩)

/-- **The properties of the edges of a call are JSON with the callee in it exactly if the callee has no quotes, no
backslashes and no control characters.** -/
theorem callee_json_iff (tree : SyntaxTree) (relPath fileQn : Text) (sourceLength : ℕ) {x : Place} {funcNode : TSNode}
    {e : FastEdge} (hx : x ∈ tree.descendantsOfType callTypes)
    (hf : x.node.childForFieldName "function".toList = some funcNode)
    (he : e ∈ callEdges (extractDecls tree fileQn).decls x) : e ∈ (extractFast tree relPath fileQn sourceLength).edges ∧
      (HasString e.properties "callee".toList funcNode.text ↔ Plain funcNode.text) := by
  obtain ⟨n, hproperties⟩ := properties_of_mem hf he
  refine ⟨callEdges_mem_extractFast hx he relPath sourceLength, ?_⟩
  rw [hproperties]
  exact hasString_callProperties

/-! ### `function run() {}` and `function main() { load("a").run() }` -/

def chainedCall : TSNode :=
  .inner 30 "call_expression" "load(\"a\").run()"
    [.inField "function" (.leaf 31 "member_expression" "load(\"a\").run"), .inField "arguments" (.leaf 32 "arguments" "()")]

def chainedBlock : TSNode :=
  .inField "body" (.inner 24 "statement_block" "\x7b load(\"a\").run() \x7d" [chainedCall])

def chainedMain : TSNode :=
  .inner 20 "function_declaration" "function main() \x7b load(\"a\").run() \x7d"
    [.leaf 21 "function" "function", .inField "name" (.leaf 22 "identifier" "main"),
      .inField "parameters" (.leaf 23 "formal_parameters" "()"), chainedBlock]

def chainedProgram : TSNode :=
  .inner 0 "program" "function run() \x7b\x7d\nfunction main() \x7b load(\"a\").run() \x7d"
    [.inner 10 "function_declaration" "function run() \x7b\x7d"
      [.leaf 11 "function" "function", .inField "name" (.leaf 12 "identifier" "run"),
        .inField "parameters" (.leaf 13 "formal_parameters" "()"), .inField "body" (.leaf 14 "statement_block" "\x7b\x7d")],
      chainedMain]

def chainedTree : SyntaxTree := ⟨chainedProgram, by decide⟩

def chainedEdge : FastEdge :=
  ⟨"f::main".toList, "f::run".toList, .CALLS, callProperties "load(\"a\").run".toList 0⟩

theorem chainedEdge_mem : chainedEdge ∈ callEdges (extractDecls chainedTree ['f']).decls
    ⟨chainedCall, [chainedBlock, chainedMain, chainedProgram]⟩ := by
  decide

theorem chainedCall_mem :
    ⟨chainedCall, [chainedBlock, chainedMain, chainedProgram]⟩ ∈ chainedTree.descendantsOfType callTypes := by
  have hcalls : chainedTree.descendantsOfType callTypes = [⟨chainedCall, [chainedBlock, chainedMain, chainedProgram]⟩] := rfl
  rw [hcalls]
  exact mem_cons_self

theorem callee_json_iff_chained : chainedEdge ∈ (extractFast chainedTree ['f', '.', 't', 's'] ['f'] 50).edges ∧
    (HasString chainedEdge.properties "callee".toList "load(\"a\").run".toList ↔ Plain "load(\"a\").run".toList) :=
  callee_json_iff chainedTree ['f', '.', 't', 's'] ['f'] 50 chainedCall_mem rfl chainedEdge_mem

/-- The quotes of `load("a").run` end the string before its end. -/
theorem callee_json_quotes : ¬∀ (tree : SyntaxTree) (relPath fileQn : Text) (sourceLength : ℕ),
    ∀ x ∈ tree.descendantsOfType callTypes, ∀ funcNode, x.node.childForFieldName "function".toList = some funcNode →
    ∀ e ∈ (extractFast tree relPath fileQn sourceLength).edges, e ∈ callEdges (extractDecls tree fileQn).decls x →
    HasString e.properties "callee".toList funcNode.text := by
  intro h
  have hedge := callEdges_mem_extractFast chainedCall_mem chainedEdge_mem ['f', '.', 't', 's'] 50
  have hjson := h chainedTree _ _ _ _ chainedCall_mem _ rfl _ hedge chainedEdge_mem
  have hplain : Plain "load(\"a\").run".toList := hasString_callProperties.mp hjson
  exact absurd hplain (by decide)

end Ariad.FastWalker
