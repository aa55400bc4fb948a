import Ariad.Mcp.LiteralScan

/-!
# When the literals of all files are found

Backslashes of indexed paths become slashes. A file whose name has a backslash is not read then, and another one may be
read in its place; the scan is complete all the same.

* `newFiles` — the files that the loop reads, each with the path by which it was found.
* `complete_iff` — the scan is complete if and only if all files can be read within the budgets.
* `LiteralExact` — the matches of a literal are its occurrences in the indexed files.
* `lookupLiterals_exact_iff` — this holds if and only if no file with the literal is taken for another one.
-/

namespace Ariad.Mcp

open Find Bridge Keyset List

/-! ## The files of a path -/

section Files

variable (disk : SourceDisk) (realRoot : Names)

/-- The text of a file, as it is decoded. -/
def SourceDisk.textAt (real : Names) : Option Units :=
  match disk.stat real with
  | some (.file bytes _) => some (decodeUtf8 bytes)
  | _ => none

def SourceDisk.contentOf (real : Names) : Units := (disk.textAt real).getD []

def absolutePath (filePath : Text) : Names :=
  if isAbsolute filePath then resolveNames [] filePath else resolveNames realRoot filePath

/-- The real path of the file that a path names. -/
def fileAt (filePath : Text) : Option Names :=
  match disk.realpath (absolutePath realRoot filePath) with
  | .ok real => (disk.textAt real).map fun _ => real
  | .error _ => none

/-- The file of an indexed path: the one that it names as it stands, or, if there is none, the one that it names with
backslashes as separators. -/
def named (filePath : Text) : Option Names :=
  (fileAt disk realRoot filePath).or (fileAt disk realRoot (slashes filePath))

/-- Every file of the indexed paths, once. -/
def indexedFiles (indexed : List Text) : List Names :=
  ((indexed.filter (· ≠ [])).filterMap (named disk realRoot)).dedup

/-- Every file of the paths after they were normalized, once. -/
def spelledFiles (indexed : List Text) : List Names :=
  ((indexed.filter (· ≠ [])).filterMap fun p => fileAt disk realRoot (normalizedIndexedPath p)).dedup

/-- A file that can be read, is not too long and is no binary file. -/
def ReadableText (real : Names) : Prop :=
  ∃ bytes, disk.stat real = some (.file bytes true) ∧ bytes.length ≤ maxFileBytes ∧ 0 ∉ bytes

def fileSize (real : Names) : ℕ :=
  match disk.stat real with
  | some (.file bytes _) => bytes.length
  | _ => 0

end Files

variable {disk : SourceDisk} {realRoot : Names}

variable {f : Names × Text}

theorem realpath_real {p real : Names} (h : disk.realpath p = .ok real) : disk.realpath real = .ok real := by
  have hsame := disk.realpath_append p real [] h
  rwa [append_nil, append_nil, h] at hsame

/-- The walk up leaves the names below the ancestor as they are. -/
theorem nearestExistingAncestor_spec {rev real : Names} (h : nearestExistingAncestor disk rev = some real) :
    ∃ ancestor realAncestor names, rev.reverse = ancestor ++ names ∧ disk.realpath ancestor = .ok realAncestor ∧
      real = realAncestor ++ names := by
  fun_induction nearestExistingAncestor disk rev generalizing real with
  | case1 real' hreal =>
    obtain rfl := Option.some.inj h
    exact ⟨[], real', [], rfl, hreal, (append_nil _).symm⟩
  | case2 => cases h
  | case3 name above real' hreal =>
    obtain rfl := Option.some.inj h
    exact ⟨(name :: above).reverse, real', [], (append_nil _).symm, hreal, (append_nil _).symm⟩
  | case4 name above hno ih =>
    obtain ⟨real', hreal', rfl⟩ := Option.map_eq_some_iff.mp h
    obtain ⟨ancestor, realAncestor, names, hrev, hreal, rfl⟩ := ih hreal'
    exact ⟨ancestor, realAncestor, names ++ [name], by rw [reverse_cons, hrev, append_assoc], hreal,
      append_assoc ..⟩
  | case5 => cases h

/-- Where something is, the safe real path is the real path. -/
theorem safeRealpath_spec {p real : Names} (h : safeRealpath disk p = some real) (hstat : disk.stat real ≠ none) :
    disk.realpath p = .ok real := by
  rw [safeRealpath] at h
  split at h
  · rename_i hreal
    rw [hreal, Option.some.inj h]
  · rename_i henoent
    obtain ⟨ancestor, realAncestor, names, hrev, hreal, rfl⟩ := nearestExistingAncestor_spec h
    rw [SourceDisk.stat, disk.realpath_append _ _ names hreal, ← hrev, reverse_reverse, henoent] at hstat
    exact absurd rfl hstat
  · cases h

section

variable (hroot : disk.realpath realRoot = .ok realRoot)
include hroot

theorem realpath_of_realFilePath {real : Names} {filePath : Text}
    (h : realFilePath disk realRoot filePath = .ok real) (hstat : disk.stat real ≠ none) :
    disk.realpath (absolutePath realRoot filePath) = .ok real := by
  rw [realFilePath] at h
  rw [absolutePath]
  split at h
  · rename_i habsolute
    rw [if_pos habsolute]
    split at h
    · rename_i hreal
      rw [hreal, Except.ok.inj h]
    · cases h
  · rename_i habsolute
    rw [if_neg habsolute]
    rw [assertPathInsideRoot, hroot] at h
    split at h
    · cases h
    · split at h
      · cases h
      · dsimp only at h
        split at h
        · cases h
        · rename_i hsafe
          split at h
          · obtain rfl := Except.ok.inj h
            exact safeRealpath_spec hsafe hstat
          · cases h

/-- A path that leads to a file names it. -/
theorem realpath_of_locate {real : Names} {filePath : Text}
    (h : locate disk realRoot filePath = .at real) (hstat : disk.stat real ≠ none) :
    disk.realpath (absolutePath realRoot filePath) = .ok real := by
  rw [locate] at h
  split at h
  · cases h
  · split at h
    · cases h
    · cases h
    · rename_i hreal
      split at h
      · obtain rfl := Located.at.inj h
        exact realpath_of_realFilePath hroot hreal hstat
      · cases h

theorem fileAt_of_locate {real : Names} {filePath : Text}
    (h : locate disk realRoot filePath = .at real) (hreadable : ReadableText disk real) :
    fileAt disk realRoot filePath = some real := by
  obtain ⟨bytes, hstat, -⟩ := hreadable
  have hreal := realpath_of_locate hroot h (by rw [hstat]; exact Option.some_ne_none _)
  simp only [fileAt, hreal, SourceDisk.textAt, hstat, Option.map_some]

end

/-! ## The loop over the matches -/

variable {maxResults : ℕ} {content : Units} {filePath : Text}

/-- What is reported of the matches in a file. -/
def report (disk : SourceDisk) (query : Units) (file : Names × Text) : List SourceMatch :=
  (occurrences (disk.contentOf file.1) query).map fun offset =>
    sourceMatch (disk.contentOf file.1) (lineStartsFor (disk.contentOf file.1)) offset file.2

theorem scanFrom_query (rounds start : ℕ) (r : QueryResult) :
    (scanFrom maxResults content filePath rounds start r).query = r.query := by
  fun_induction scanFrom maxResults content filePath rounds start r with
  | case1 => rfl
  | case2 => rfl
  | case3 => rfl
  | case4 _ _ _ _ _ _ ih => exact ih

/-- The loop adds all matches, if there is room for them. -/
theorem scanFrom_spec (content : Units) (filePath : Text) (rounds start : ℕ) (r : QueryResult) (hr : r.found.length ≤ maxResults)
    (htruncated : r.matchesTruncated = false) :
    ((scanFrom maxResults content filePath rounds start r).matchesTruncated = false ↔
      r.found.length + (occurrencesFrom content r.query rounds start).length ≤ maxResults) ∧
    ((scanFrom maxResults content filePath rounds start r).matchesTruncated = false →
      (scanFrom maxResults content filePath rounds start r).found = r.found ++
        (occurrencesFrom content r.query rounds start).map fun offset =>
          sourceMatch content (lineStartsFor content) offset filePath) := by
  fun_induction scanFrom maxResults content filePath rounds start r with
  | case1 start r =>
    refine ⟨iff_of_true htruncated ?_, fun _ => (append_nil _).symm⟩
    exact hr
  | case2 rounds start r hnone =>
    rw [occurrencesFrom, hnone]
    exact ⟨iff_of_true htruncated hr, fun _ => (append_nil _).symm⟩
  | case3 rounds start r offset hsome hfull =>
    rw [occurrencesFrom, hsome, length_cons]
    have htrue : ¬true = false := Bool.noConfusion
    exact ⟨iff_of_false htrue (by omega), fun h => absurd h htrue⟩
  | case4 rounds start r offset hsome hroom ih =>
    dsimp only at ih
    rw [length_append, length_singleton] at ih
    obtain ⟨hiff, hfound⟩ := ih (by omega) htruncated
    rw [occurrencesFrom, hsome, length_cons, hiff]
    refine ⟨by omega, fun h => ?_⟩
    rw [hfound (hiff.mpr h), map_cons, append_assoc]
    rfl

/-- The loop over a list of files, for one query. -/
def scanFiles (disk : SourceDisk) (maxResults : ℕ) (files : List (Names × Text)) (r : QueryResult) : QueryResult :=
  files.foldl (fun r file => scanContent maxResults (disk.contentOf file.1) file.2 r) r

def matchCount (disk : SourceDisk) (query : Units) (reals : List Names) : ℕ :=
  (reals.map fun real => (occurrences (disk.contentOf real) query).length).sum

theorem scanContent_query (maxResults : ℕ) (content : Units) (filePath : Text) (r : QueryResult) :
    (scanContent maxResults content filePath r).query = r.query := by
  rw [scanContent]
  split
  · rfl
  · exact scanFrom_query ..

theorem scanFiles_query (files : List (Names × Text)) (r : QueryResult) :
    (scanFiles disk maxResults files r).query = r.query := by
  induction files generalizing r with
  | nil => rfl
  | cons file files ih => exact (ih _).trans (scanContent_query ..)

theorem scanFiles_truncated (files : List (Names × Text)) {r : QueryResult} (h : r.matchesTruncated = true) :
    scanFiles disk maxResults files r = r := by
  induction files with
  | nil => rfl
  | cons file files ih =>
    have hstep : scanContent maxResults (disk.contentOf file.1) file.2 r = r := by rw [scanContent, if_pos h]
    rw [scanFiles, foldl_cons, hstep]
    exact ih

/-- Without truncation, the matches of all files are reported. -/
theorem scanFiles_spec (files : List (Names × Text)) {r : QueryResult} (hr : r.found.length ≤ maxResults)
    (htruncated : r.matchesTruncated = false) : ((scanFiles disk maxResults files r).matchesTruncated = false ↔
      r.found.length + matchCount disk r.query (files.map Prod.fst) ≤ maxResults) ∧
    ((scanFiles disk maxResults files r).matchesTruncated = false →
      (scanFiles disk maxResults files r).found = r.found ++ files.flatMap (report disk r.query)) := by
  induction files generalizing r with
  | nil => exact ⟨iff_of_true htruncated hr, fun _ => (append_nil _).symm⟩
  | cons file files ih =>
    have hstep : scanFiles disk maxResults (file :: files) r =
        scanFiles disk maxResults files (scanContent maxResults (disk.contentOf file.1) file.2 r) := rfl
    have hcount : matchCount disk r.query ((file :: files).map Prod.fst) =
        (occurrences (disk.contentOf file.1) r.query).length + matchCount disk r.query (files.map Prod.fst) := by
      rw [matchCount, map_cons, map_cons, sum_cons]
      rfl
    have hcontent : scanContent maxResults (disk.contentOf file.1) file.2 r =
        scanFrom maxResults (disk.contentOf file.1) file.2 ((disk.contentOf file.1).length + 1) 0 r := by
      rw [scanContent, htruncated]
      rfl
    obtain ⟨hiff, hfound⟩ := scanFrom_spec (disk.contentOf file.1) file.2
      ((disk.contentOf file.1).length + 1) 0 r hr htruncated
    have hquery := scanContent_query maxResults (disk.contentOf file.1) file.2 r
    rw [← hcontent] at hiff hfound
    rw [hstep, hcount]
    cases hnext : (scanContent maxResults (disk.contentOf file.1) file.2 r).matchesTruncated with
    | true =>
      rw [scanFiles_truncated files hnext, hnext]
      have hmany := mt hiff.mpr (by rw [hnext]; exact nofun)
      exact ⟨iff_of_false nofun fun h => hmany (by rw [occurrences] at h; omega), nofun⟩
    | false =>
      have hlist := hfound hnext
      have hlength : (scanContent maxResults (disk.contentOf file.1) file.2 r).found.length =
          r.found.length + (occurrences (disk.contentOf file.1) r.query).length := by
        rw [hlist, length_append, length_map]
        rfl
      have hroom := hiff.mp hnext
      obtain ⟨hiff', hfound'⟩ := ih (by rw [hlength]; exact hroom) hnext
      rw [hquery, hlength, Nat.add_assoc] at hiff'
      refine ⟨hiff', fun h => ?_⟩
      rw [hfound' h, hlist, hquery, flatMap_cons, append_assoc]
      rfl

/-! ## The loop over the paths -/

variable {s : LiteralScan}

/-- The files that the loop meets for the first time, each with its path. -/
def newFiles (disk : SourceDisk) (realRoot : Names) : List Names → List Text → List (Names × Text)
  | _, [] => []
  | seen, filePath :: rest =>
    match locate disk realRoot filePath with
    | .at real =>
      if real ∈ seen then newFiles disk realRoot seen rest
      else (real, filePath) :: newFiles disk realRoot (seen ++ [real]) rest
    | _ => newFiles disk realRoot seen rest

theorem entries_incrementReason (key : ScanReason) (s : LiteralScan) : (incrementReason key s).reasons.entries ≠ [] := by
  intro hnil
  have hget : (incrementReason key s).reasons.get key ≠ none := by
    rw [incrementReason, OrderedMap.get_set_self]
    exact Option.some_ne_none _
  rw [ne_eq, OrderedMap.get_eq_none_iff, OrderedMap.keys, hnil] at hget
  exact hget not_mem_nil

/-- The state after a file was read. -/
def afterFile (disk : SourceDisk) (maxResults : ℕ) (s : LiteralScan) (real : Names) (filePath : Text) : LiteralScan where
  results := s.results.map (scanContent maxResults (disk.contentOf real) filePath)
  seenRealPaths := s.seenRealPaths ++ [real]
  filesScanned := s.filesScanned + 1
  bytesScanned := s.bytesScanned + fileSize disk real
  reasons := s.reasons

theorem scanBuffer_cases (maxResults : ℕ) (filePath : Text) (buffer : List UInt8) (s : LiteralScan) :
    (scanBuffer maxResults filePath buffer s).1.reasons.entries ≠ [] ∧
        ¬(buffer.length ≤ maxFileBytes ∧ 0 ∉ buffer ∧ s.bytesScanned + buffer.length ≤ maxTotalBytes) ∨
      (buffer.length ≤ maxFileBytes ∧ 0 ∉ buffer ∧ s.bytesScanned + buffer.length ≤ maxTotalBytes) ∧
        scanBuffer maxResults filePath buffer s = ({ s with
            results := s.results.map (scanContent maxResults (decodeUtf8 buffer) filePath)
            filesScanned := s.filesScanned + 1
            bytesScanned := s.bytesScanned + buffer.length }, true) := by
  rw [scanBuffer]
  split
  · rename_i hlong
    exact .inl ⟨entries_incrementReason _ _, fun h => Nat.not_le.mpr hlong h.1⟩
  · rename_i hlong
    split
    · rename_i hbudget
      exact .inl ⟨entries_incrementReason _ _, fun h => Nat.not_le.mpr hbudget h.2.2⟩
    · rename_i hbudget
      dsimp only
      split
      · rename_i hbinary
        exact .inl ⟨entries_incrementReason _ _, fun h => h.2.1 hbinary⟩
      · rename_i hbinary
        exact .inr ⟨⟨Nat.not_lt.mp hlong, hbinary, Nat.not_lt.mp hbudget⟩, rfl⟩

/-- What a path does: it gives a reason, or its file was met before, or its file is read within the budgets. -/
theorem scanPath_cases (disk : SourceDisk) (maxResults : ℕ) (realRoot : Names) (s : LiteralScan) (filePath : Text) :
    (scanPath disk maxResults realRoot s filePath).1.reasons.entries ≠ [] ∧
        (∀ real, locate disk realRoot filePath = .at real → real ∉ s.seenRealPaths ∧
          ¬(ReadableText disk real ∧ s.bytesScanned + fileSize disk real ≤ maxTotalBytes)) ∨
      ∃ real, locate disk realRoot filePath = .at real ∧
        (real ∈ s.seenRealPaths ∧ scanPath disk maxResults realRoot s filePath = (s, true) ∨
          real ∉ s.seenRealPaths ∧ ReadableText disk real ∧ s.bytesScanned + fileSize disk real ≤ maxTotalBytes ∧
            scanPath disk maxResults realRoot s filePath = (afterFile disk maxResults s real filePath, true)) := by
  rw [scanPath]
  split
  iterate 2
    · rename_i hlocate
      exact .inl ⟨entries_incrementReason _ _, fun real hreal => by rw [hlocate] at hreal; cases hreal⟩
  · rename_i real hlocate
    rw [hlocate]
    split
    · rename_i hseen
      exact .inr ⟨real, rfl, .inl ⟨hseen, rfl⟩⟩
    · rename_i hseen
      -- A reason, unless the file is a text that can be read.
      have hreason {key : ScanReason} {t : LiteralScan} {go : Bool}
          (hno : ¬(ReadableText disk real ∧ s.bytesScanned + fileSize disk real ≤ maxTotalBytes)) :
          (incrementReason key t, go).1.reasons.entries ≠ [] ∧ ∀ r, Located.at real = .at r → r ∉ s.seenRealPaths ∧
            ¬(ReadableText disk r ∧ s.bytesScanned + fileSize disk r ≤ maxTotalBytes) := by
        refine ⟨entries_incrementReason _ _, fun r hr => ?_⟩
        obtain rfl := Located.at.inj hr
        exact ⟨hseen, hno⟩
      dsimp only
      split
      iterate 2
        · rename_i hstat
          refine .inl (hreason fun ⟨⟨bytes, hfile, _⟩, _⟩ => ?_)
          rw [hstat] at hfile
          cases hfile
      · rename_i bytes readable hstat
        have hsize : fileSize disk real = bytes.length := by rw [fileSize, hstat]
        have hreadable : ReadableText disk real ↔ readable = true ∧ bytes.length ≤ maxFileBytes ∧ 0 ∉ bytes := by
          rw [ReadableText, hstat]
          constructor
          · rintro ⟨bytes', hfile, h⟩
            cases hfile
            exact ⟨rfl, h⟩
          · rintro ⟨rfl, h⟩
            exact ⟨bytes, rfl, h⟩
        split
        · rename_i hlong
          exact .inl (hreason fun h => Nat.not_le.mpr hlong (hreadable.mp h.1).2.1)
        · split
          · rename_i hbudget
            exact .inl (hreason fun h => Nat.not_le.mpr hbudget (hsize ▸ h.2))
          · split
            · rename_i hread
              rcases scanBuffer_cases maxResults filePath bytes { s with seenRealPaths := s.seenRealPaths ++ [real] } with
                ⟨hbuffer, hno⟩ | ⟨⟨hlength, hbinary, hfits⟩, hbuffer⟩
              · refine .inl ⟨hbuffer, fun r hr => ?_⟩
                obtain rfl := Located.at.inj hr
                rw [hsize]
                exact ⟨hseen, fun h => hno ⟨(hreadable.mp h.1).2.1, (hreadable.mp h.1).2.2, h.2⟩⟩
              · have hcontent : disk.contentOf real = decodeUtf8 bytes := by
                  rw [SourceDisk.contentOf, SourceDisk.textAt, hstat]
                  rfl
                refine .inr ⟨real, rfl, .inr ⟨hseen, hreadable.mpr ⟨hread, hlength, hbinary⟩, hsize ▸ hfits, ?_⟩⟩
                rw [hbuffer, afterFile, hcontent, hsize]
            · rename_i hread
              exact .inl (hreason fun h => hread (hreadable.mp h.1).1)

/-- A reason stays. -/
theorem scanPaths_reasons (paths : List Text) (h : s.reasons.entries ≠ []) :
    (scanPaths disk maxResults realRoot s paths).reasons.entries ≠ [] := by
  induction paths generalizing s with
  | nil => exact h
  | cons filePath rest ih =>
    have hstep : (scanPath disk maxResults realRoot s filePath).1.reasons.entries ≠ [] := by
      rcases scanPath_cases disk maxResults realRoot s filePath with hreason | ⟨real, -, ⟨-, hseen⟩ | ⟨-, -, -, hread⟩⟩
      · exact hreason.1
      · rwa [hseen]
      · rwa [hread]
    rw [scanPaths]
    split
    · exact ih hstep
    · exact hstep

theorem scanPaths_of_reason {filePath : Text} (rest : List Text)
    (h : (scanPath disk maxResults realRoot s filePath).1.reasons.entries ≠ []) :
    (scanPaths disk maxResults realRoot s (filePath :: rest)).reasons.entries ≠ [] := by
  rw [scanPaths]
  split
  · exact scanPaths_reasons rest h
  · exact h

/-- **The loop.** There is no reason in the end if and only if all files can be read within the budgets, and then every
query was looked for in all of them. -/
theorem scanPaths_spec (disk : SourceDisk) (maxResults : ℕ) (realRoot : Names) (paths : List Text) (hreasons : s.reasons.entries = []) (hbytes : s.bytesScanned ≤ maxTotalBytes) :
    ((scanPaths disk maxResults realRoot s paths).reasons.entries = [] ↔
      (∀ p ∈ paths, ∃ real, locate disk realRoot p = .at real) ∧
        (∀ f ∈ newFiles disk realRoot s.seenRealPaths paths, ReadableText disk f.1) ∧
          s.bytesScanned + ((newFiles disk realRoot s.seenRealPaths paths).map fun f => fileSize disk f.1).sum ≤
            maxTotalBytes) ∧ ((scanPaths disk maxResults realRoot s paths).reasons.entries = [] →
      (scanPaths disk maxResults realRoot s paths).results =
        s.results.map (scanFiles disk maxResults (newFiles disk realRoot s.seenRealPaths paths))) := by
  induction paths generalizing s with
  | nil =>
    refine ⟨iff_of_true hreasons ⟨nofun, nofun, hbytes⟩, fun _ => ?_⟩
    exact (map_id s.results).symm
  | cons filePath rest ih =>
    rcases scanPath_cases disk maxResults realRoot s filePath with
      ⟨hreason, hno⟩ | ⟨real, hlocate, ⟨hseen, hstep⟩ | ⟨hnew, hreadable, hbudget, hstep⟩⟩
    · have hnever := scanPaths_of_reason rest hreason
      refine ⟨iff_of_false hnever ?_, fun h => absurd h hnever⟩
      rintro ⟨hlocated, hall, htotal⟩
      obtain ⟨real, hlocate⟩ := hlocated filePath mem_cons_self
      obtain ⟨hnew, hunfit⟩ := hno real hlocate
      rw [newFiles, hlocate] at hall htotal
      dsimp only at hall htotal
      rw [if_neg hnew] at hall htotal
      rw [map_cons, sum_cons, ← Nat.add_assoc] at htotal
      exact hunfit ⟨hall _ mem_cons_self, (Nat.le_add_right ..).trans htotal⟩
    · have hnext : scanPaths disk maxResults realRoot s (filePath :: rest) = scanPaths disk maxResults realRoot s rest := by
        rw [scanPaths, hstep]
        rfl
      have hfiles : newFiles disk realRoot s.seenRealPaths (filePath :: rest) =
          newFiles disk realRoot s.seenRealPaths rest := by
        rw [newFiles, hlocate]
        exact if_pos hseen
      obtain ⟨hiff, hresults⟩ := ih hreasons hbytes
      have hlocated : ∃ real, locate disk realRoot filePath = .at real := ⟨real, hlocate⟩
      rw [hnext, hfiles, hiff, forall_mem_cons, and_iff_right hlocated]
      exact ⟨Iff.rfl, fun h => hresults (hiff.mpr h)⟩
    · have hnext : scanPaths disk maxResults realRoot s (filePath :: rest) =
          scanPaths disk maxResults realRoot (afterFile disk maxResults s real filePath) rest := by
        rw [scanPaths, hstep]
        rfl
      have hfiles : newFiles disk realRoot s.seenRealPaths (filePath :: rest) =
          (real, filePath) :: newFiles disk realRoot (s.seenRealPaths ++ [real]) rest := by
        rw [newFiles, hlocate]
        exact if_neg hnew
      obtain ⟨hiff, hresults⟩ := @ih (afterFile disk maxResults s real filePath) hreasons hbudget
      have hlocated : ∃ real, locate disk realRoot filePath = .at real := ⟨real, hlocate⟩
      rw [hnext, hfiles, hiff, forall_mem_cons, and_iff_right hlocated, forall_mem_cons,
        and_iff_right hreadable, map_cons, sum_cons, ← Nat.add_assoc]
      refine ⟨Iff.rfl, fun h => (hresults (hiff.mpr h)).trans ?_⟩
      exact map_map

/-! ## The files that are read -/

theorem locate_of_mem_newFiles {seen : List Names} {paths : List Text}
    (h : f ∈ newFiles disk realRoot seen paths) : locate disk realRoot f.2 = .at f.1 := by
  fun_induction newFiles disk realRoot seen paths with
  | case1 => cases h
  | case2 _ _ _ _ _ _ ih => exact ih h
  | case3 seen filePath rest real hlocate _ ih =>
    rcases mem_cons.mp h with rfl | h
    · exact hlocate
    · exact ih h
  | case4 _ _ _ _ ih => exact ih h

theorem mem_newFiles {seen : List Names} {paths : List Text} {real : Names} :
    real ∈ (newFiles disk realRoot seen paths).map Prod.fst ↔
      real ∉ seen ∧ ∃ p ∈ paths, locate disk realRoot p = .at real := by
  fun_induction newFiles disk realRoot seen paths with
  | case1 => simp
  | case2 seen filePath rest r hlocate hseen ih =>
    rw [ih, exists_mem_cons_iff, hlocate]
    refine and_congr_right fun hnew => ⟨.inr, fun h => h.resolve_left fun hr => ?_⟩
    obtain rfl := Located.at.inj hr
    exact hnew hseen
  | case3 seen filePath rest r hlocate hseen ih =>
    rw [map_cons, mem_cons, ih, exists_mem_cons_iff, hlocate, mem_append, mem_singleton]
    by_cases hr : real = r
    · subst hr
      simp [hseen]
    · simp [hr, Ne.symm hr]
  | case4 seen filePath rest hother ih =>
    rw [ih, exists_mem_cons_iff]
    refine and_congr_right fun _ => ⟨.inr, fun h => h.resolve_left fun hr => hother _ hr⟩

theorem nodup_newFiles (seen : List Names) (paths : List Text) :
    ((newFiles disk realRoot seen paths).map Prod.fst).Nodup := by
  fun_induction newFiles disk realRoot seen paths with
  | case1 => exact nodup_nil
  | case2 _ _ _ _ _ _ ih => exact ih
  | case3 seen filePath rest real hlocate hseen ih =>
    rw [map_cons, nodup_cons]
    exact ⟨fun h => (mem_newFiles.mp h).1 (mem_append_right _ mem_cons_self), ih⟩
  | case4 _ _ _ _ ih => exact ih

variable {indexed : List Text}

theorem length_listProjectFilePaths (indexed : List Text) (limit : ℕ) :
    (listProjectFilePaths indexed limit).length = min limit (indexed.dedup.filter (· ≠ [])).length := by
  rw [listProjectFilePaths, length_take, length_orderBy]

theorem mem_indexedPaths (hfew : (indexed.dedup.filter (· ≠ [])).length ≤ maxIndexedFiles) {p : Text} :
    p ∈ indexedPaths indexed ↔ ∃ filePath ∈ indexed, filePath ≠ [] ∧ normalizedIndexedPath filePath = p := by
  rw [indexedPaths, take_of_length_le (by rw [length_listProjectFilePaths]; omega), listProjectFilePaths,
    take_of_length_le (by rw [length_orderBy]; omega), mem_sortBy, mem_dedup, mem_map]
  simp [and_assoc]

/-- The scan is not stopped: not too many paths, all of them lead to texts that can be read, and these are not too long
together. -/
structure Scannable (disk : SourceDisk) (realRoot : Names) (indexed : List Text) : Prop where
  few : (indexed.dedup.filter (· ≠ [])).length ≤ maxIndexedFiles
  readable : ∀ p ∈ indexed, p ≠ [] → ∃ real, locate disk realRoot (normalizedIndexedPath p) = .at real ∧
    ReadableText disk real
  budget : ((spelledFiles disk realRoot indexed).map (fileSize disk)).sum ≤ maxTotalBytes

/-- The files of the loop. -/
def filesRead (disk : SourceDisk) (realRoot : Names) (indexed : List Text) : List (Names × Text) :=
  newFiles disk realRoot [] (indexedPaths indexed)

theorem filesRead_perm (hroot : disk.realpath realRoot = .ok realRoot)
    (hfew : (indexed.dedup.filter (· ≠ [])).length ≤ maxIndexedFiles)
    (hreadable : ∀ p ∈ indexed, p ≠ [] → ∃ real, locate disk realRoot (normalizedIndexedPath p) = .at real ∧
      ReadableText disk real) :
    ((filesRead disk realRoot indexed).map Prod.fst).Perm (spelledFiles disk realRoot indexed) := by
  refine (perm_ext_iff_of_nodup (nodup_newFiles ..) (nodup_dedup _)).mpr fun real => ?_
  rw [mem_newFiles, and_iff_right not_mem_nil, mem_dedup, mem_filterMap]
  simp only [mem_indexedPaths hfew, mem_filter, decide_eq_true_eq]
  constructor
  · rintro ⟨_, ⟨filePath, hmem, hne, rfl⟩, hlocate⟩
    obtain ⟨real', hlocate', hreal⟩ := hreadable filePath hmem hne
    obtain rfl := Located.at.inj (hlocate.symm.trans hlocate')
    exact ⟨filePath, ⟨hmem, hne⟩, fileAt_of_locate hroot hlocate hreal⟩
  · rintro ⟨filePath, ⟨hmem, hne⟩, hfile⟩
    obtain ⟨real', hlocate, hreal⟩ := hreadable filePath hmem hne
    obtain rfl := Option.some.inj (hfile.symm.trans (fileAt_of_locate hroot hlocate hreal))
    exact ⟨_, ⟨filePath, hmem, hne, rfl⟩, hlocate⟩

/-- The scan is complete if and only if nothing stops it, and then every query was looked for in all files. -/
theorem complete_iff (hroot : disk.realpath realRoot = .ok realRoot) (indexed : List Text) (queries : List Units) :
    ((scanPaths disk maxResults realRoot (startScan indexed queries) (indexedPaths indexed)).reasons.entries = [] ↔
      Scannable disk realRoot indexed) ∧ (Scannable disk realRoot indexed →
      (scanPaths disk maxResults realRoot (startScan indexed queries) (indexedPaths indexed)).results =
        queries.map fun query => scanFiles disk maxResults (filesRead disk realRoot indexed) ⟨query, [], false⟩) := by
  have hlength := length_listProjectFilePaths indexed (maxIndexedFiles + 1)
  by_cases hfew : (indexed.dedup.filter (· ≠ [])).length ≤ maxIndexedFiles
  · have hstart : (startScan indexed queries).reasons.entries = [] := by
      rw [startScan, if_neg (by omega)]
      rfl
    obtain ⟨hiff, hresults⟩ := scanPaths_spec disk maxResults realRoot (indexedPaths indexed) hstart (Nat.zero_le _)
    have hsum (hreadable : ∀ p ∈ indexed, p ≠ [] → ∃ real, locate disk realRoot (normalizedIndexedPath p) = .at real ∧
          ReadableText disk real) :
        ((filesRead disk realRoot indexed).map fun f => fileSize disk f.1).sum =
          ((spelledFiles disk realRoot indexed).map (fileSize disk)).sum := by
      rw [← ((filesRead_perm hroot hfew hreadable).map (fileSize disk)).sum_eq, map_map]
      rfl
    have hscannable : (scanPaths disk maxResults realRoot (startScan indexed queries)
        (indexedPaths indexed)).reasons.entries = [] ↔ Scannable disk realRoot indexed := by
      rw [hiff]
      constructor
      · rintro ⟨hlocated, hall, hbudget⟩
        have hreadable : ∀ p ∈ indexed, p ≠ [] → ∃ real, locate disk realRoot (normalizedIndexedPath p) = .at real ∧
            ReadableText disk real := by
          intro p hp hne
          have hmem := (mem_indexedPaths hfew).mpr ⟨p, hp, hne, rfl⟩
          obtain ⟨real, hlocate⟩ := hlocated _ hmem
          obtain ⟨f, hf, rfl⟩ := mem_map.mp (mem_newFiles.mpr ⟨not_mem_nil, _, hmem, hlocate⟩)
          exact ⟨f.1, hlocate, hall f hf⟩
        refine ⟨hfew, hreadable, ?_⟩
        rw [← hsum hreadable]
        exact (Nat.le_add_left ..).trans hbudget
      · rintro ⟨-, hreadable, hbudget⟩
        refine ⟨fun p hp => ?_, fun f hf => ?_, ?_⟩
        · obtain ⟨filePath, hmem, hne, rfl⟩ := (mem_indexedPaths hfew).mp hp
          obtain ⟨real, hlocate, -⟩ := hreadable filePath hmem hne
          exact ⟨real, hlocate⟩
        · obtain ⟨-, p, hp, hlocate⟩ := mem_newFiles.mp (mem_map_of_mem hf)
          obtain ⟨filePath, hmem, hne, rfl⟩ := (mem_indexedPaths hfew).mp hp
          obtain ⟨real, hlocate', hreal⟩ := hreadable filePath hmem hne
          obtain rfl := Located.at.inj (hlocate.symm.trans hlocate')
          exact hreal
        · have htotal := hsum hreadable
          rw [← htotal] at hbudget
          exact (Nat.zero_add _).le.trans hbudget
    refine ⟨hscannable, fun h => (hresults (hscannable.mpr h)).trans ?_⟩
    rw [startScan, map_map]
    rfl
  · have hstart : (startScan indexed queries).reasons.entries ≠ [] := by
      have hset : (startScan indexed queries).reasons.get .indexedFileLimit ≠ none := by
        rw [startScan, if_pos (by omega), OrderedMap.get_set_self]
        exact Option.some_ne_none _
      intro hnil
      rw [ne_eq, OrderedMap.get_eq_none_iff, OrderedMap.keys, hnil] at hset
      exact hset not_mem_nil
    exact ⟨iff_of_false (scanPaths_reasons _ hstart) fun h => hfew h.few, fun h => absurd h.few hfew⟩

/-! ## Exact matches -/

/-- What is reported of files: for each one, its occurrences from left to right, each in the right place. -/
structure Reports (disk : SourceDisk) (realRoot : Names) (query : Units) (files : List (Names × Text))
    (found : List SourceMatch) : Prop where
  leads : ∀ f ∈ files, fileAt disk realRoot f.2 = some f.1
  places : ∃ part : Names × Text → List SourceMatch, found = files.flatMap part ∧
    ∀ f ∈ files, (∀ m ∈ part f, m.path = f.2) ∧ ∃ offsets, Occurrences (disk.contentOf f.1) query 0 offsets ∧
      List.Forall₂ (RightPlace (disk.contentOf f.1) query) offsets (part f)

/-- The matches of a literal are its occurrences in the indexed files, each file once. -/
def LiteralExact (disk : SourceDisk) (realRoot : Names) (indexed : List Text) (query : Units)
    (found : List SourceMatch) : Prop :=
  ∃ files : List (Names × Text), (files.map Prod.fst).Perm (indexedFiles disk realRoot indexed) ∧
    Reports disk realRoot query files found

variable {query : Units} {files files' : List (Names × Text)} {found : List SourceMatch}

theorem ne_nil_of_validQuery (h : validQuery query = true) : query ≠ [] := by
  rintro rfl
  cases h

theorem reports_report (hquery : validQuery query = true) (hleads : ∀ f ∈ files, fileAt disk realRoot f.2 = some f.1) :
    Reports disk realRoot query files (files.flatMap (report disk query)) := by
  refine ⟨hleads, report disk query, rfl, fun f _ => ⟨fun m hm => ?_, ?_⟩⟩
  · obtain ⟨offset, -, rfl⟩ := mem_map.mp hm
    exact sourceMatch_path ..
  · have hne := ne_nil_of_validQuery hquery
    have hoccurrences : Occurrences (disk.contentOf f.1) query 0 (occurrences (disk.contentOf f.1) query) :=
      occurrences_spec hne
    simp only [validQuery, Bool.and_eq_true, decide_eq_true_eq] at hquery
    refine ⟨_, hoccurrences, ?_⟩
    rw [report, forall₂_map_right_iff, forall₂_same]
    exact fun offset hoffset => sourceMatch_spec (hoccurrences.occursAt hoffset) hne hquery.1.1.2 hquery.1.2 _

/-- A file with the literal is among all files of which the same is reported. -/
theorem Reports.mem (h : Reports disk realRoot query files found) (h' : Reports disk realRoot query files' found) (hf : f ∈ files) (hcontained : query <:+: disk.contentOf f.1) : f.1 ∈ files'.map Prod.fst := by
  obtain ⟨part, hfound, hplaces⟩ := h.places
  obtain ⟨part', hfound', hplaces'⟩ := h'.places
  obtain ⟨hpath, offsets, hoffsets, hpart⟩ := hplaces f hf
  have hne : part f ≠ [] := fun hnil => by
    rw [hnil, forall₂_nil_right_iff] at hpart
    exact hoffsets.eq_nil_iff.mp hpart hcontained
  obtain ⟨m, hm⟩ := exists_mem_of_ne_nil _ hne
  have hmem : m ∈ files'.flatMap part' := by
    rw [← hfound', hfound]
    exact mem_flatMap.mpr ⟨f, hf, hm⟩
  obtain ⟨f', hf', hm'⟩ := mem_flatMap.mp hmem
  have hsame : f.2 = f'.2 := (hpath m hm).symm.trans ((hplaces' f' hf').1 m hm')
  have hreal := h.leads f hf
  rw [hsame, h'.leads f' hf'] at hreal
  rw [← Option.some.inj hreal]
  exact mem_map_of_mem hf'

theorem flatMap_filter {α β : Type} {l : List α} {f : α → List β} {p : α → Bool} (h : ∀ a ∈ l, p a = false → f a = []) :
    (l.filter p).flatMap f = l.flatMap f := by
  induction l with
  | nil => rfl
  | cons a l ih =>
    have htail := ih fun a ha => h a (mem_cons_of_mem _ ha)
    cases hp : p a with
    | true => rw [filter_cons_of_pos hp, flatMap_cons, flatMap_cons, htail]
    | false =>
      rw [filter_cons_of_neg (by simp [hp]), flatMap_cons, h a mem_cons_self hp, nil_append, htail]

theorem report_eq_nil (hquery : validQuery query = true) (h : ¬query <:+: disk.contentOf f.1) :
    report disk query f = [] := by
  rw [report, (occurrences_eq_nil_iff (ne_nil_of_validQuery hquery)).mpr h]
  rfl

theorem exists_path_of_indexed {real : Names} (h : real ∈ indexedFiles disk realRoot indexed) :
    ∃ filePath, fileAt disk realRoot filePath = some real := by
  obtain ⟨p, -, hnamed⟩ := mem_filterMap.mp (mem_dedup.mp h)
  rcases Option.or_eq_some_iff.mp hnamed with hfile | ⟨-, hfile⟩
  · exact ⟨p, hfile⟩
  · exact ⟨_, hfile⟩

theorem perm_indexedFiles (disk : SourceDisk) (realRoot : Names) (indexed : List Text) :
    ((spelledFiles disk realRoot indexed).filter (· ∈ indexedFiles disk realRoot indexed) ++
      (indexedFiles disk realRoot indexed).filter (· ∉ spelledFiles disk realRoot indexed)).Perm
        (indexedFiles disk realRoot indexed) := by
  have hspelled : (spelledFiles disk realRoot indexed).Nodup := nodup_dedup _
  have hindexed : (indexedFiles disk realRoot indexed).Nodup := nodup_dedup _
  generalize spelledFiles disk realRoot indexed = spelled at *
  generalize indexedFiles disk realRoot indexed = reals at *
  have hboth : (spelled.filter (· ∈ reals)).Perm (reals.filter (· ∈ spelled)) := by
    refine (perm_ext_iff_of_nodup (hspelled.filter _) (hindexed.filter _)).mpr fun real => ?_
    simp only [mem_filter, decide_eq_true_eq]
    exact and_comm
  have hsplit := filter_append_perm (fun real => decide (real ∈ spelled)) reals
  simp only [← decide_not] at hsplit
  exact (hboth.append_right _).trans hsplit

/-- The matches in the files that are read are exact if and only if the files with the literal are the indexed ones. -/
theorem literalExact_iff (hquery : validQuery query = true) (hleads : ∀ f ∈ files, fileAt disk realRoot f.2 = some f.1)
    (hfiles : (files.map Prod.fst).Perm (spelledFiles disk realRoot indexed)) :
    LiteralExact disk realRoot indexed query (files.flatMap (report disk query)) ↔
      ∀ real, query <:+: disk.contentOf real →
        (real ∈ indexedFiles disk realRoot indexed ↔ real ∈ spelledFiles disk realRoot indexed) := by
  have hreports := reports_report hquery hleads
  constructor
  · rintro ⟨files', hperm, hreports'⟩ real hcontained
    rw [← hperm.mem_iff, ← hfiles.mem_iff]
    constructor
    · intro hmem
      obtain ⟨f, hf, rfl⟩ := mem_map.mp hmem
      exact hreports'.mem hreports hf hcontained
    · intro hmem
      obtain ⟨f, hf, rfl⟩ := mem_map.mp hmem
      exact hreports.mem hreports' hf hcontained
  · intro h
    choose! path hpath using fun real => @exists_path_of_indexed disk realRoot indexed real
    -- The files that are both, and the indexed ones without the literal.
    let others := (indexedFiles disk realRoot indexed).filter (· ∉ spelledFiles disk realRoot indexed)
    let files' := files.filter (·.1 ∈ indexedFiles disk realRoot indexed) ++ others.map fun real => (real, path real)
    have hleads' : ∀ f ∈ files', fileAt disk realRoot f.2 = some f.1 := by
      intro f hf
      rcases mem_append.mp hf with hf | hf
      · exact hleads f (mem_filter.mp hf).1
      · obtain ⟨real, hreal, rfl⟩ := mem_map.mp hf
        exact hpath real (mem_filter.mp hreal).1
    have hfound : files'.flatMap (report disk query) = files.flatMap (report disk query) := by
      have hothers : (others.map fun real => (real, path real)).flatMap (report disk query) = [] := by
        rw [flatMap_eq_nil_iff]
        intro f hf
        obtain ⟨real, hreal, rfl⟩ := mem_map.mp hf
        obtain ⟨hindexed, hno⟩ := mem_filter.mp hreal
        exact report_eq_nil hquery fun hcontained => of_decide_eq_true hno ((h real hcontained).mp hindexed)
      rw [flatMap_append, hothers, append_nil]
      refine flatMap_filter fun f hf hno => report_eq_nil hquery fun hcontained => ?_
      exact of_decide_eq_false hno ((h f.1 hcontained).mpr (hfiles.mem_iff.mp (mem_map_of_mem hf)))
    refine ⟨files', ?_, hfound ▸ reports_report hquery hleads'⟩
    have hfst : files'.map Prod.fst = (files.map Prod.fst).filter (· ∈ indexedFiles disk realRoot indexed) ++ others := by
      rw [map_append, map_map, filter_map]
      exact congrArg _ (map_id' others)
    rw [hfst]
    exact ((hfiles.filter _).append_right _).trans (perm_indexedFiles disk realRoot indexed)

/-! ## The operation -/

/-- The claim for a complete scan: there is a result for every literal, and if it is not truncated, it is exact. -/
def LookupExact (disk : SourceDisk) (projectRoot : Option Names) (indexed : List Text) (queries : List Units)
    (maxResults : Option ℤ) : Prop :=
  ∀ realRoot response, projectRoot.map disk.realpath = some (.ok realRoot) →
    lookupLiterals disk projectRoot indexed queries maxResults = some response → response.scanComplete = true →
      response.results.map QueryResult.query = queries ∧
        ∀ r ∈ response.results, r.matchesTruncated = false → LiteralExact disk realRoot indexed r.query r.found

/-- If all files are read, and the matches are not too many, then every file with a literal is an indexed file if and
only if an indexed path leads to it after its backslashes became slashes. -/
def FilesKept (disk : SourceDisk) (projectRoot : Option Names) (indexed : List Text) (queries : List Units)
    (maxResults : Option ℤ) : Prop :=
  ∀ realRoot, projectRoot.map disk.realpath = some (.ok realRoot) → validateQueries queries = true →
    Scannable disk realRoot indexed → ∀ query ∈ queries,
      matchCount disk query (spelledFiles disk realRoot indexed) ≤ maxResultsPerQuery maxResults →
        ∀ real, query <:+: disk.contentOf real →
          (real ∈ indexedFiles disk realRoot indexed ↔ real ∈ spelledFiles disk realRoot indexed)

/-- The result of one query after all files were read. -/
theorem result_exact_iff (hroot : disk.realpath realRoot = .ok realRoot) (h : Scannable disk realRoot indexed)
    (hquery : validQuery query = true) :
    let r := scanFiles disk maxResults (filesRead disk realRoot indexed) ⟨query, [], false⟩
    (r.matchesTruncated = false → LiteralExact disk realRoot indexed r.query r.found) ↔
      (matchCount disk query (spelledFiles disk realRoot indexed) ≤ maxResults →
        ∀ real, query <:+: disk.contentOf real →
          (real ∈ indexedFiles disk realRoot indexed ↔ real ∈ spelledFiles disk realRoot indexed)) := by
  intro r
  have hfiles := filesRead_perm hroot h.few h.readable
  obtain ⟨hiff, hfound⟩ := @scanFiles_spec disk maxResults (filesRead disk realRoot indexed) ⟨query, [], false⟩
    (Nat.zero_le _) rfl
  have hcount : matchCount disk query ((filesRead disk realRoot indexed).map Prod.fst) =
      matchCount disk query (spelledFiles disk realRoot indexed) := (hfiles.map _).sum_eq
  have htruncated : r.matchesTruncated = false ↔
      matchCount disk query (spelledFiles disk realRoot indexed) ≤ maxResults := by
    rw [← hcount]
    exact hiff.trans (by rw [length_nil, Nat.zero_add])
  have hleads : ∀ f ∈ filesRead disk realRoot indexed, fileAt disk realRoot f.2 = some f.1 := by
    intro f hf
    obtain ⟨-, p, hp, hlocate⟩ := mem_newFiles.mp (mem_map_of_mem hf)
    obtain ⟨filePath, hmem, hne, rfl⟩ := (mem_indexedPaths h.few).mp hp
    obtain ⟨real, hlocate', hreal⟩ := h.readable filePath hmem hne
    obtain rfl := Located.at.inj (hlocate.symm.trans hlocate')
    exact fileAt_of_locate hroot (locate_of_mem_newFiles hf) hreal
  rw [← htruncated]
  refine forall_congr' fun hno => ?_
  rw [← literalExact_iff hquery hleads hfiles, scanFiles_query, hfound hno]
  exact Iff.rfl

/-- **Literal lookup.** A complete scan is exact if and only if no file with a literal is taken for another one. -/
theorem lookupLiterals_exact_iff (disk : SourceDisk) (projectRoot : Option Names) (indexed : List Text)
    (queries : List Units) (maxResults : Option ℤ) :
    LookupExact disk projectRoot indexed queries maxResults ↔ FilesKept disk projectRoot indexed queries maxResults := by
  refine forall_congr' fun realRoot => ?_
  by_cases hproject : projectRoot.map disk.realpath = some (.ok realRoot)
  · obtain ⟨root, -, hreal⟩ := Option.map_eq_some_iff.mp hproject
    have hroot := realpath_real hreal
    cases hvalid : validateQueries queries with
    | false => simp [lookupLiterals, hvalid]
    | true =>
      have hqueries : ∀ query ∈ queries, validQuery query = true := by
        simp only [validateQueries, Bool.and_eq_true, all_eq_true] at hvalid
        exact hvalid.1.2
      have hlookup : lookupLiterals disk projectRoot indexed queries maxResults =
          some (scanPaths disk (maxResultsPerQuery maxResults) realRoot (startScan indexed queries)
            (indexedPaths indexed)).response := by
        rw [lookupLiterals, if_pos hvalid, hproject]
      obtain ⟨hiff, hresults⟩ : _ ∧ (_ → (scanPaths disk (maxResultsPerQuery maxResults) realRoot
          (startScan indexed queries) (indexedPaths indexed)).response.results = _) :=
        complete_iff hroot indexed queries
      constructor
      · intro h _ _ hscannable query hmem
        obtain ⟨-, hexact⟩ := h _ hproject hlookup (List.isEmpty_iff.mpr (hiff.mpr hscannable))
        rw [hresults hscannable] at hexact
        exact (result_exact_iff hroot hscannable (hqueries query hmem)).mp (hexact _ (mem_map_of_mem hmem))
      · intro h response _ hresponse hcomplete
        obtain rfl := Option.some.inj (hlookup.symm.trans hresponse)
        have hscannable := hiff.mp (List.isEmpty_iff.mp hcomplete)
        rw [hresults hscannable]
        constructor
        · rw [map_map]
          exact (map_congr_left fun query _ => scanFiles_query _ _).trans (map_id _)
        · intro r hr
          obtain ⟨query, hmem, rfl⟩ := mem_map.mp hr
          exact (result_exact_iff hroot hscannable (hqueries query hmem)).mpr (h hproject rfl hscannable query hmem)
  · exact iff_of_true (fun _ h => absurd h hproject) fun h => absurd h hproject

theorem LiteralExact.not_contained (h : LiteralExact disk realRoot indexed query []) {real : Names}
    (hreal : real ∈ indexedFiles disk realRoot indexed) : ¬query <:+: disk.contentOf real := by
  obtain ⟨files, hperm, hreports⟩ := h
  obtain ⟨part, hfound, hplaces⟩ := hreports.places
  obtain ⟨f, hf, rfl⟩ := mem_map.mp (hperm.mem_iff.mpr hreal)
  obtain ⟨-, offsets, hoffsets, hpart⟩ := hplaces f hf
  rw [flatMap_eq_nil_iff.mp hfound.symm f hf, forall₂_nil_right_iff] at hpart
  exact hoffsets.eq_nil_iff.mp hpart

/-- A file with a backslash in its name, and another one in a directory. -/
def backslashEntries : List (Names × SourceEntry) :=
  [(["r".toList], .other), (["r".toList, "a\\b".toList], .file [0x78] true), (["r".toList, "a".toList], .other),
    (["r".toList, "a".toList, "b".toList], .file [0x79] true)]

def backslashDisk : SourceDisk where
  realpath p := if p ∈ backslashEntries.map Prod.fst then .ok p else .error .enoent
  entry p := (backslashEntries.find? fun e => e.1 = p).map Prod.snd
  realpath_append p q names h := by
    split at h
    · rw [Except.ok.inj h]
    · cases h

/-- The first file is never read, and the scan is complete. -/
theorem lookupLiterals_backslash :
    ¬∀ (disk : SourceDisk) (projectRoot : Option Names) (indexed : List Text) (queries : List Units)
      (maxResults : Option ℤ), LookupExact disk projectRoot indexed queries maxResults := by
  intro h
  have hanswer : lookupLiterals backslashDisk (some ["r".toList]) ["a\\b".toList, "a/b".toList] [[0x78]] none =
      some ⟨[⟨[0x78], [], false⟩], 1, 1, true, .empty⟩ := by
    decide +kernel
  obtain ⟨-, hexact⟩ := h _ _ _ _ _ ["r".toList] _ (by decide) hanswer rfl
  have hindexed : ["r".toList, "a\\b".toList] ∈
      indexedFiles backslashDisk ["r".toList] ["a\\b".toList, "a/b".toList] := by
    decide +kernel
  exact (hexact _ mem_cons_self rfl).not_contained hindexed (by decide +kernel)

end Ariad.Mcp
