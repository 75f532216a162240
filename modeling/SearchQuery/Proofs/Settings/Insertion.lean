import SearchQuery.Proofs.FileTree
import SearchQuery.Proofs.Settings.Search

/-! A new file that says nothing changes no settings, wherever the search comes upon it: the files before
it are read as before, and so are those behind it, which it does not hide. -/

namespace SearchQuery.Settings

/-- The second list is the first, or the first with `x` put in somewhere. -/
def Inserted {α : Type} (x : α) (l l' : List α) : Prop :=
  l' = l ∨ ∃ before after, l = before ++ after ∧ l' = before ++ x :: after

/-- The same error, or the same settings, where one more file may be among the sources. -/
inductive LoadsAlike (path : Path) :
    Except LoadError (Config Path) → Except LoadError (Config Path) → Prop
  | error (e : LoadError) : LoadsAlike path (.error e) (.error e)
  | ok {c c' : Config Path} (hsettings : c'.settings = c.settings)
      (hsources : Inserted path c.sources c'.sources) : LoadsAlike path (.ok c) (.ok c')

variable {t t' : FileTree} {cwd home path : Path} {paths before after : List Path} {text : String}

theorem Inserted.cons {α : Type} {x a : α} {l l' : List α} (h : Inserted x l l') :
    Inserted x (a :: l) (a :: l') := by
  rcases h with rfl | ⟨before, after, rfl, rfl⟩
  · exact .inl rfl
  · exact .inr ⟨a :: before, after, rfl, rfl⟩

theorem inserted_filter {α : Type} {x : α} {p p' : α → Bool} {l : List α} (hl : l.Nodup)
    (hx : p x = false) (hsame : ∀ a, a ≠ x → p' a = p a) : Inserted x (l.filter p) (l.filter p') := by
  have hfilter : ∀ k : List α, x ∉ k → k.filter p' = k.filter p := fun k hk =>
    List.filter_congr fun a ha => hsame a fun heq => hk (heq ▸ ha)
  by_cases hmem : x ∈ l
  · obtain ⟨before, after, rfl⟩ := List.append_of_mem hmem
    rw [List.nodup_middle, List.nodup_cons, List.mem_append, not_or] at hl
    obtain ⟨⟨hbefore, hafter⟩, -⟩ := hl
    rw [List.filter_append, List.filter_append, hfilter before hbefore, List.filter_cons,
      List.filter_cons, hx, hfilter after hafter, if_neg Bool.false_ne_true]
    cases p' x with
    | true => exact .inr ⟨_, _, rfl, rfl⟩
    | false => exact .inl rfl
  · exact .inl (hfilter l hmem)

theorem LoadsAlike.refl (path : Path) (r : Except LoadError (Config Path)) : LoadsAlike path r r := by
  cases r with
  | error e => exact .error e
  | ok c => exact .ok rfl (.inl rfl)

theorem LoadsAlike.ahead {r r' : Except LoadError (Config Path)} (h : LoadsAlike path r r')
    (p : Path) (file : SettingsFile) :
    LoadsAlike path (r.map (ahead p file)) (r'.map (ahead p file)) := by
  cases h with
  | error e => exact .error e
  | ok hsettings hsources => exact .ok (congrArg (overlay file) hsettings) hsources.cons

theorem overlay_silent (s : Settings) : overlay ⟨none, none, none⟩ s = s := rfl

/-- A silent file is passed over. -/
theorem loadInTurn_silent (htext : t'.readText path = .ok text)
    (hread : SettingsFile.read text = some ⟨none, none, none⟩)
    (hsame : ∀ q ∈ paths, t'.readText q = t.readText q) :
    LoadsAlike path (loadInTurn t paths) (loadInTurn t' (path :: paths)) := by
  have hfile : readFile t' path = .ok ⟨none, none, none⟩ := readFile_of_read htext hread
  have hroot : isRoot t' path = false := isRoot_of_read htext hread
  rw [loadInTurn, hfile, loadInTurn_congr hsame]
  simp only [hroot, Bool.false_eq_true, if_false]
  cases loadInTurn t paths with
  | error e => exact .error e
  | ok c => exact .ok (overlay_silent c.settings) (.inr ⟨[], c.sources, rfl, rfl⟩)

theorem loadInTurn_inserted (htext : t'.readText path = .ok text)
    (hread : SettingsFile.read text = some ⟨none, none, none⟩)
    (hsame : ∀ q ∈ before ++ after, t'.readText q = t.readText q) :
    LoadsAlike path (loadInTurn t (before ++ after)) (loadInTurn t' (before ++ path :: after)) := by
  induction before with
  | nil => exact loadInTurn_silent htext hread hsame
  | cons p before ih =>
    have hp := hsame p List.mem_cons_self
    rw [List.cons_append, List.cons_append, loadInTurn, loadInTurn, readFile_congr hp, isRoot_congr hp]
    cases readFile t p with
    | error e => exact .error e
    | ok file =>
      dsimp only
      split_ifs
      · exact .refl _ _
      · exact (ih fun q hq => hsame q (List.mem_cons_of_mem _ hq)).ahead p file

/-- A tree that has one silent file more loads alike in every directory. -/
theorem load_inserted (hnew : t.isFile path = false) (hsame : ∀ q, q ≠ path → t'.get? q = t.get? q)
    (htext : t'.readText path = .ok text)
    (hread : SettingsFile.read text = some ⟨none, none, none⟩) (cwd home : Path) :
    LoadsAlike path (load t cwd home) (load t' cwd home) := by
  have hold : ∀ q ∈ chain t cwd home, t'.readText q = t.readText q := by
    intro q hq
    have hfile := isFile_of_mem_chain cwd home hq
    refine readText_congr hfile (hsame q fun heq => ?_)
    rw [heq, hnew] at hfile
    cases hfile
  have hchain : Inserted path (chain t cwd home) (chain t' cwd home) := by
    rw [chain_eq, chain_eq]
    exact inserted_filter (places_nodup cwd home) hnew fun q hq =>
      FileTree.isFile_congr (hsame q hq)
  rw [load_eq, load_eq]
  rcases hchain with hchain | ⟨before, after, hchain, hchain'⟩
  · rw [hchain, loadInTurn_congr hold]
    exact .refl _ _
  · rw [hchain] at hold ⊢
    rw [hchain']
    exact loadInTurn_inserted htext hread hold

end SearchQuery.Settings
