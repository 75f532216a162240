import Mathlib.Data.List.Nodup
import Mathlib.Tactic.SplitIfs
import SearchQuery.Proofs.Toml.Statement
import SearchQuery.Settings.Search

/-! The search finds all files before the first of them is loaded, and what cannot be read does not end
it. Still it comes to one pass over the files in their order: each is read and checked, and behind the
first that says it is the root or is not in order no file counts. -/

namespace SearchQuery.Settings

/-- The settings files of a directory and of all above it, the nearest first, and then the user's own. -/
def chain (tree : FileTree) (cwd home : Path) : List Path :=
  let files := ((ancestors cwd).map fileIn).filter tree.isFile
  if tree.isFile (fileIn home) && !files.contains (fileIn home) then files ++ [fileIn home]
  else files

/-- True for a file behind which no other counts: it says it is the root, or it is not in order. -/
def cuts (tree : FileTree) (path : Path) : Bool :=
  isRoot tree path || !(readFile tree path).isOk

/-- Files up to and with the first that is the root. -/
def untilRoot (tree : FileTree) : List Path → List Path
  | [] => []
  | path :: paths => if isRoot tree path then [path] else path :: untilRoot tree paths

/-- Puts a file before all others. -/
def ahead (path : Path) (file : SettingsFile) (c : Config Path) : Config Path :=
  ⟨overlay file c.settings, path :: c.sources⟩

/-- Loads files one after another, up to and with one that is the root. -/
def loadInTurn (tree : FileTree) : List Path → Except LoadError (Config Path)
  | [] => .ok ⟨default, []⟩
  | path :: paths =>
    match readFile tree path with
    | .error e => .error e
    | .ok file =>
      if isRoot tree path then .ok (ahead path file ⟨default, []⟩)
      else (loadInTurn tree paths).map (ahead path file)

variable {t t' : FileTree} {cwd home home' path : Path} {paths : List Path} {file : SettingsFile}
  {e : LoadError}

theorem loadFiles_cons_error (h : readFile t path = .error e) :
    loadFiles t (path :: paths) = .error e := by
  rw [loadFiles, List.mapM_cons, h]
  rfl

theorem loadFiles_cons_ok (h : readFile t path = .ok file) :
    loadFiles t (path :: paths) = (loadFiles t paths).map (ahead path file) := by
  rw [loadFiles, loadFiles, List.mapM_cons, h]
  cases paths.mapM (readFile t) <;> rfl

theorem loadFiles_untilRoot (t : FileTree) (paths : List Path) :
    loadFiles t (untilRoot t paths) = loadInTurn t paths := by
  induction paths with
  | nil => rfl
  | cons path paths ih =>
    rw [untilRoot, loadInTurn]
    cases h : readFile t path with
    | error e =>
      -- The search may have gone on behind a file that cannot be read, but loading fails on it first.
      split_ifs <;> exact loadFiles_cons_error h
    | ok file =>
      split_ifs
      · exact loadFiles_cons_ok h
      · rw [loadFiles_cons_ok h, ih]

theorem untilRoot_append (t : FileTree) (paths more : List Path) :
    untilRoot t (paths ++ more) =
      if paths.any (isRoot t) then untilRoot t paths else paths ++ untilRoot t more := by
  induction paths with
  | nil => rfl
  | cons path paths ih =>
    rw [List.cons_append, untilRoot, ih, untilRoot, List.any_cons]
    cases isRoot t path <;> cases paths.any (isRoot t) <;> rfl

theorem untilRoot_of_no_root (h : paths.any (isRoot t) = false) : untilRoot t paths = paths := by
  have happend := untilRoot_append t paths []
  rwa [h, if_neg Bool.false_ne_true, List.append_nil, untilRoot, List.append_nil] at happend

theorem searchDirs_eq (t : FileTree) (dirs : List Path) :
    (searchDirs t dirs).files = untilRoot t ((dirs.map fileIn).filter t.isFile) ∧
      (searchDirs t dirs).closedBy.isNone = !((dirs.map fileIn).filter t.isFile).any (isRoot t) := by
  induction dirs with
  | nil => exact ⟨rfl, rfl⟩
  | cons dir dirs ih =>
    obtain ⟨hfiles, hclosed⟩ := ih
    rw [searchDirs, List.map_cons, List.filter_cons]
    cases t.isFile (fileIn dir) with
    | false => exact ⟨hfiles, hclosed⟩
    | true =>
      simp only [Bool.not_true, Bool.false_eq_true, if_false, if_true, untilRoot, List.any_cons]
      cases isRoot t (fileIn dir) with
      | true => exact ⟨rfl, rfl⟩
      | false => exact ⟨congrArg _ hfiles, hclosed⟩

/-- What a search finds is the chain, up to and with the first root. -/
theorem search_files (t : FileTree) (cwd home : Path) :
    (search t cwd home).files = untilRoot t (chain t cwd home) := by
  obtain ⟨hfiles, hclosed⟩ := searchDirs_eq t (ancestors cwd)
  rw [search, chain]
  simp only [hclosed]
  cases hroot : (((ancestors cwd).map fileIn).filter t.isFile).any (isRoot t) with
  | true =>
    simp only [Bool.not_true, Bool.false_and, Bool.false_eq_true, if_false]
    rw [hfiles]
    split_ifs
    · rw [untilRoot_append, hroot, if_pos rfl]
    · rfl
  | false =>
    rw [untilRoot_of_no_root hroot] at hfiles
    simp only [hfiles, Bool.not_false, Bool.true_and]
    split_ifs
    · have huser : untilRoot t [fileIn home] = [fileIn home] := by
        rw [untilRoot]
        split_ifs <;> rfl
      rw [untilRoot_append, hroot, if_neg Bool.false_ne_true, huser]
    · rw [hfiles, untilRoot_of_no_root hroot]

/-- Loading is one pass over the chain. -/
theorem load_eq (t : FileTree) (cwd home : Path) :
    load t cwd home = loadInTurn t (chain t cwd home) := by
  rw [load, search_files, loadFiles_untilRoot]

theorem readText_congr (hfile : t.isFile path = true) (h : t'.get? path = t.get? path) :
    t'.readText path = t.readText path := by
  rw [FileTree.readText, FileTree.readText, h]
  rw [FileTree.isFile] at hfile
  cases hentry : t.get? path with
  | none =>
    rw [hentry] at hfile
    cases hfile
  | some entry => cases entry <;> rfl

theorem readFile_congr (h : t'.readText path = t.readText path) :
    readFile t' path = readFile t path := by
  rw [readFile, readFile, h]

theorem isRoot_congr (h : t'.readText path = t.readText path) : isRoot t' path = isRoot t path := by
  rw [isRoot, isRoot, h]

theorem readFile_of_read {text : String} (htext : t.readText path = .ok text)
    (hread : SettingsFile.read text = some file) : readFile t path = check path file := by
  simp only [readFile, htext, hread]

theorem isRoot_of_read {text : String} (htext : t.readText path = .ok text)
    (hread : SettingsFile.read text = some file) :
    isRoot t path = decide (file.root = some true) := by
  simp only [isRoot, htext, hread, Option.any_some]

theorem cuts_congr (h : t'.readText path = t.readText path) : cuts t' path = cuts t path := by
  rw [cuts, cuts, isRoot_congr h, readFile_congr h]

theorem loadInTurn_congr (h : ∀ path ∈ paths, t'.readText path = t.readText path) :
    loadInTurn t' paths = loadInTurn t paths := by
  induction paths with
  | nil => rfl
  | cons path paths ih =>
    have hread := h path List.mem_cons_self
    rw [loadInTurn, loadInTurn, readFile_congr hread, isRoot_congr hread,
      ih fun p hp => h p (List.mem_cons_of_mem _ hp)]

theorem loadInTurn_cut {before : List Path} {cut : Path} (hcut : cuts t cut = true)
    (rest : List Path) : loadInTurn t (before ++ cut :: rest) = loadInTurn t (before ++ [cut]) := by
  induction before with
  | nil =>
    rw [List.nil_append, List.nil_append, loadInTurn, loadInTurn]
    rw [cuts, Bool.or_eq_true] at hcut
    cases hfile : readFile t cut with
    | error e => rfl
    | ok file =>
      rcases hcut with hroot | hok
      · rw [hroot]
        rfl
      · rw [hfile] at hok
        cases hok
  | cons path before ih => rw [List.cons_append, List.cons_append, loadInTurn, loadInTurn, ih]

theorem loadInTurn_uncut (h : ∀ path ∈ paths, cuts t path = false) :
    ∃ c, loadInTurn t paths = .ok c ∧ c.sources = paths := by
  induction paths with
  | nil => exact ⟨_, rfl, rfl⟩
  | cons path paths ih =>
    obtain ⟨c, hload, hsources⟩ := ih fun p hp => h p (List.mem_cons_of_mem _ hp)
    have hpath := h path List.mem_cons_self
    rw [cuts, Bool.or_eq_false_iff] at hpath
    obtain ⟨hroot, hok⟩ := hpath
    cases hfile : readFile t path with
    | error e =>
      rw [hfile] at hok
      cases hok
    | ok file =>
      refine ⟨ahead path file c, ?_, congrArg _ hsources⟩
      rw [loadInTurn, hfile]
      simp only [hroot, Bool.false_eq_true, if_false, hload, Except.map]

/-- Where settings files are looked for, those of the directories first. -/
def places (cwd home : Path) : List Path :=
  let files := (ancestors cwd).map fileIn
  if fileIn home ∈ files then files else files ++ [fileIn home]

theorem chain_eq (t : FileTree) (cwd home : Path) :
    chain t cwd home = (places cwd home).filter t.isFile := by
  rw [chain, places]
  by_cases hmem : fileIn home ∈ (ancestors cwd).map fileIn
  · -- If the user's file is one of the directories', it is in the chain already or no file at all.
    rw [if_pos hmem]
    refine if_neg fun huser => ?_
    rw [Bool.and_eq_true_iff, Bool.not_eq_true', List.contains_eq_mem, decide_eq_false_iff_not] at huser
    exact huser.2 (List.mem_filter.2 ⟨hmem, huser.1⟩)
  · have hfiles : (((ancestors cwd).map fileIn).filter t.isFile).contains (fileIn home) = false := by
      rw [List.contains_eq_mem, decide_eq_false_iff_not]
      exact fun h => hmem (List.mem_filter.1 h).1
    rw [if_neg hmem, List.filter_append, hfiles, Bool.not_false, Bool.and_true, List.filter_singleton]
    cases t.isFile (fileIn home) with
    | true => rfl
    | false => exact (List.append_nil _).symm

theorem isFile_of_mem_chain (cwd home : Path) (h : path ∈ chain t cwd home) : t.isFile path = true := by
  rw [chain_eq] at h
  exact (List.mem_filter.1 h).2

theorem way_nodup (dir : Path) : dir.way.Nodup := by
  induction dir with
  | nil => exact List.nodup_singleton _
  | cons name dir ih =>
    rw [Path.way, List.nodup_cons]
    refine ⟨fun h => ?_, ih.map fun _ _ h => (List.cons.inj h).2⟩
    obtain ⟨_, _, h⟩ := List.mem_map.1 h
    cases h

theorem fileIn_injective : Function.Injective fileIn := fun _ _ h => List.append_cancel_right h

theorem places_nodup (cwd home : Path) : (places cwd home).Nodup := by
  have hfiles : ((ancestors cwd).map fileIn).Nodup :=
    (List.nodup_reverse.2 (way_nodup cwd)).map fileIn_injective
  rw [places]
  split_ifs with hmem
  · exact hfiles
  · rw [← List.concat_eq_append]
    exact hfiles.concat hmem

/-- No file is in the chain twice. -/
theorem chain_nodup (t : FileTree) (cwd home : Path) : (chain t cwd home).Nodup := by
  rw [chain_eq]
  exact (places_nodup cwd home).filter _

/-- Files beyond the cut cannot influence the settings: a tree in which the chain goes on differently
behind the same cut loads with the same result. Without a cut the whole chain counts. -/
theorem load_beyond_cut (t : FileTree) (cwd home : Path) :
    (∀ before cut rest, chain t cwd home = before ++ cut :: rest → cuts t cut = true →
      ∀ t' home' rest', chain t' cwd home' = before ++ cut :: rest' →
        (∀ path ∈ before ++ [cut], t'.get? path = t.get? path) →
        load t' cwd home' = load t cwd home) ∧
    ((∀ path ∈ chain t cwd home, cuts t path = false) →
      ∃ c, load t cwd home = .ok c ∧ c.sources = chain t cwd home ∧ c.sources.Nodup) := by
  constructor
  · intro before cut rest hchain hcut t' home' rest' hchain' hsame
    have hread : ∀ path ∈ before ++ [cut], t'.readText path = t.readText path := by
      intro path hpath
      refine readText_congr (isFile_of_mem_chain cwd home ?_) (hsame path hpath)
      rw [hchain, ← List.singleton_append, ← List.append_assoc]
      exact List.mem_append_left _ hpath
    have hcut' : cuts t' cut = true :=
      (cuts_congr (hread cut (List.mem_append_right _ List.mem_cons_self))).trans hcut
    calc load t' cwd home' = loadInTurn t' (before ++ [cut]) := by
          rw [load_eq, hchain', loadInTurn_cut hcut' rest']
      _ = loadInTurn t (before ++ [cut]) := loadInTurn_congr hread
      _ = load t cwd home := by rw [load_eq, hchain, loadInTurn_cut hcut rest]
  · intro huncut
    obtain ⟨c, hload, hsources⟩ := loadInTurn_uncut huncut
    exact ⟨c, (load_eq t cwd home).trans hload, hsources, hsources ▸ chain_nodup t cwd home⟩

theorem read_root : SettingsFile.read "root = true\n" = some ⟨some true, none, none⟩ := by
  have hvalue : ∀ n h, Toml.Yields (Toml.value n 0 "true\n".toList h) (.boolean true) ['\n'] := by
    intro n h
    rw [Toml.value_of_head (by decide) (by decide), Toml.leaf_of_head (by decide) (by decide)]
    exact ⟨Nat.le_trans (by decide) h, rfl⟩
  have hread : Toml.read "root = true\n" = some [("root", .boolean true)] := by
    have hblank : ∀ c ∈ "true\n".toList.head?, Toml.isBlank c = false := by
      rintro c hc
      cases hc
      rfl
    have hstatements := (Toml.statements_setting (d := .empty) (by decide : Toml.IsBare "root".toList)
      hblank hvalue rfl).trans Toml.statements_end
    exact congrArg (Option.map fun d => Toml.finishEntries d.entries) hstatements
  rw [SettingsFile.read, hread]
  rfl

theorem read_nothing : SettingsFile.read "" = some ⟨none, none, none⟩ := by
  rw [SettingsFile.read, Toml.read_of_filler rfl]
  rfl

/-- A file that says it is the root, with nothing else there. -/
def closed : FileTree := ⟨[(["work", fileName], .file (Utf8.encode "root = true\n"))]⟩

/-- The same file, with one above it that is no text and one of the user. -/
def closedBelow : FileTree :=
  ⟨([fileName], .file [0xff]) :: (["home", fileName], .file []) :: closed.entries⟩

/-- A file that says nothing, and the same one of the user. -/
def silent : FileTree := ⟨[(["work", fileName], .file []), (["home", fileName], .file [])]⟩

theorem load_beyond_cut_root :
    load closedBelow ["work"] ["home"] = load closed ["work"] ["work"] ∧
      ∃ c, load silent ["work"] ["home"] = .ok c ∧
        c.sources = chain silent ["work"] ["home"] ∧ c.sources.Nodup := by
  have hcut : cuts closed ["work", fileName] = true := by
    have htext : closed.readText ["work", fileName] = .ok "root = true\n" := by decide +kernel
    rw [cuts, isRoot_of_read htext read_root]
    rfl
  have huncut : ∀ path ∈ chain silent ["work"] ["home"], cuts silent path = false := by
    intro path hpath
    have htext : silent.readText path = .ok "" := by
      have hall : ∀ p ∈ chain silent ["work"] ["home"], silent.readText p = .ok "" := by decide +kernel
      exact hall path hpath
    rw [cuts, isRoot_of_read htext read_nothing, readFile_of_read htext read_nothing]
    rfl
  exact ⟨(load_beyond_cut closed ["work"] ["work"]).1 [] ["work", fileName] [] (by decide +kernel) hcut
      closedBelow ["home"] [[fileName], ["home", fileName]] (by decide +kernel) (by decide +kernel),
    (load_beyond_cut silent ["work"] ["home"]).2 huncut⟩

end SearchQuery.Settings
