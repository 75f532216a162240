import SearchQuery.Proofs.Settings.Insertion
import SearchQuery.Proofs.Settings.Written
import SearchQuery.Proofs.Text.Utf8
import SearchQuery.Run

/-! Starting a settings file is safe: where it fails nothing has changed, where it succeeds nothing but
the new file has, and what the new file holds says nothing, so that every directory keeps its settings. -/

namespace SearchQuery.Place

open Settings

def initPath (p : Place) (everywhere : Bool) : Path :=
  fileIn (if everywhere || p.cwd == p.home then p.home else p.cwd)

def templateFile : Entry := .file (Utf8.encode template)

variable {p : Place} {everywhere force : Bool}

/-- A run fails and leaves the files alone, or it writes the template; without force, to where nothing was. -/
theorem init_cases (p : Place) (everywhere force : Bool) :
    ((p.init everywhere force).code = 1 ∧ (p.init everywhere force).tree = p.tree) ∨
    ((p.init everywhere force).code = 0 ∧
      p.tree.write (p.initPath everywhere) (Utf8.encode template) =
        .ok (p.init everywhere force).tree ∧
      (force = false → p.tree.get? (p.initPath everywhere) = none)) := by
  rw [init, initPath]
  generalize fileIn (if everywhere || p.cwd == p.home then p.home else p.cwd) = path
  dsimp only
  split_ifs with hthere
  · exact .inl ⟨rfl, rfl⟩
  · split
    · exact .inl ⟨rfl, rfl⟩
    · next hwrite =>
      refine .inr ⟨rfl, hwrite, fun hforce => ?_⟩
      rw [hforce, Bool.not_false, Bool.and_true, Option.not_isSome_iff_eq_none] at hthere
      exact hthere

/-- A run succeeds where it may write, if nothing is there or it is told not to care. -/
theorem init_succeeds {tree : FileTree}
    (hwrite : p.tree.write (p.initPath everywhere) (Utf8.encode template) = .ok tree)
    (hforce : force = true ∨ p.tree.get? (p.initPath everywhere) = none) :
    (p.init everywhere force).code = 0 := by
  rw [initPath] at hwrite hforce
  rw [init]
  generalize fileIn (if everywhere || p.cwd == p.home then p.home else p.cwd) = path at hwrite hforce ⊢
  have hthere : ¬ ((p.tree.get? path).isSome && !force) = true := by
    rcases hforce with rfl | hnone
    · simp
    · simp [hnone]
  dsimp only
  rw [if_neg hthere, hwrite]
  rfl

theorem get?_init (h : (p.init everywhere force).code = 0) (q : Path) :
    (p.init everywhere force).tree.get? q =
      if q = p.initPath everywhere then some templateFile else p.tree.get? q := by
  rcases init_cases p everywhere force with ⟨hfail, -⟩ | ⟨-, hwrite, -⟩
  · rw [hfail] at h
    cases h
  · exact FileTree.get?_write hwrite q

theorem readText_template {t : FileTree} {path : Path} (h : t.get? path = some templateFile) :
    t.readText path = .ok template :=
  FileTree.readText_of_get? h (Utf8.decode?_encode template)

/-- Starting a settings file is safe. A run that fails changes nothing. A run that succeeds leaves the
template at the path that is its own, which is the only one that differs, unless it held the template
before; without force it held nothing before, and every directory loads as it did, but that the new file
may be among the sources. -/
theorem init_safe (p : Place) (everywhere force : Bool) :
    let o := p.run (.init everywhere force)
    let path := p.initPath everywhere
    (o.code ≠ 0 → o.tree = p.tree) ∧
    (o.code = 0 →
      (∀ q, o.tree.get? q ≠ p.tree.get? q ↔ q = path ∧ p.tree.get? path ≠ some templateFile) ∧
      o.tree.get? path = some templateFile ∧
      (force = false → p.tree.get? path = none ∧
        ∀ dir, LoadsAlike path (load p.tree dir p.home) (load o.tree dir p.home))) := by
  intro o path
  refine ⟨fun hfail => ?_, fun hcode => ?_⟩
  · rcases init_cases p everywhere force with ⟨-, htree⟩ | ⟨hcode, -⟩
    · exact htree
    · exact absurd hcode hfail
  have hget := get?_init hcode
  have hown : o.tree.get? path = some templateFile := (hget path).trans (if_pos rfl)
  have hother : ∀ q, q ≠ path → o.tree.get? q = p.tree.get? q := fun q hq =>
    (hget q).trans (if_neg hq)
  refine ⟨fun q => ?_, hown, fun hforce => ?_⟩
  · by_cases hq : q = path
    · rw [hq, hown]
      exact ⟨fun h => ⟨rfl, h.symm⟩, fun h => h.2.symm⟩
    · exact ⟨fun h => absurd (hother q hq) h, fun h => absurd h.1 hq⟩
  · rcases init_cases p everywhere force with ⟨hfail, -⟩ | ⟨-, -, hnone⟩
    · cases hfail.symm.trans hcode
    have hnew : p.tree.get? path = none := hnone hforce
    have habsent : p.tree.isFile path = false := by
      rw [FileTree.isFile, hnew]
    exact ⟨hnew, fun dir =>
      load_inserted habsent hother (readText_template hown) read_template dir p.home⟩

/-- A directory with nothing in it, next to the home directory of the user. -/
def fresh : Place :=
  ⟨⟨[([], .directory), (["work"], .directory), (["home"], .directory)]⟩, ["work"], ["home"], "$ROOT", []⟩

/-- The same where a run has started a settings file before. -/
def started : Place := { fresh with tree := (fresh.run (.init false false)).tree }

theorem init_fresh_code : (fresh.init false false).code = 0 :=
  init_succeeds (FileTree.write_new (by decide) (by decide)) (.inr (by decide))

theorem started_get? : started.tree.get? (started.initPath false) = some templateFile :=
  (get?_init init_fresh_code _).trans (if_pos rfl)

theorem init_safe_fresh :
    (started.run (.init false false)).tree = started.tree ∧
      started.tree.get? ["work", fileName] = some templateFile ∧
      ∀ dir, LoadsAlike ["work", fileName] (load fresh.tree dir ["home"])
        (load started.tree dir ["home"]) := by
  obtain ⟨-, hown, hnew⟩ := (init_safe fresh false false).2 init_fresh_code
  refine ⟨(init_safe started false false).1 fun hcode => ?_, hown, (hnew rfl).2⟩
  rcases init_cases started false false with ⟨hfail, -⟩ | ⟨-, -, hnone⟩
  · cases hfail.symm.trans hcode
  · cases started_get?.symm.trans (hnone rfl)

/-- With force the template may be put where it is already, and then no path differs. -/
theorem init_force_again : (started.run (.init false true)).code = 0 ∧
    ¬ ∃! q, (started.run (.init false true)).tree.get? q ≠ started.tree.get? q := by
  have hcode : (started.init false true).code = 0 :=
    init_succeeds (FileTree.write_over started_get?) (.inl rfl)
  refine ⟨hcode, ?_⟩
  rintro ⟨q, hq, -⟩
  refine hq ((get?_init hcode q).trans ?_)
  split_ifs with hown
  · rw [hown, started_get?]
  · rfl

end SearchQuery.Place
