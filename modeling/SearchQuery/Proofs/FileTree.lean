import Mathlib.Tactic.SplitIfs
import SearchQuery.FileTree

/-! Writing a file changes what its own path holds, and nothing else. -/

namespace SearchQuery.FileTree

variable {t t' : FileTree} {path q : Path} {e : Entry} {bytes : List UInt8}

theorem lookup_replace (entries : List (Path × Entry)) (path q : Path) (e : Entry) :
    (entries.map fun (q, old) => if q = path then (q, e) else (q, old)).lookup q =
      if q = path then (entries.lookup q).map fun _ => e else entries.lookup q := by
  induction entries with
  | nil => split_ifs <;> rfl
  | cons entry entries ih =>
    obtain ⟨r, old⟩ := entry
    have hkey : (match (r, old) with | (q, old) => if q = path then (q, e) else (q, old)) =
        (r, if r = path then e else old) := by
      dsimp only
      split_ifs <;> rfl
    rw [List.map_cons, hkey, List.lookup_cons, List.lookup_cons, ih]
    by_cases hq : q = r
    · have heq : (q == r) = true := beq_iff_eq.2 hq
      rw [heq, hq]
      split_ifs <;> rfl
    · have hne : (q == r) = false := beq_eq_false_iff_ne.2 hq
      rw [hne]

theorem get?_put (t : FileTree) (path q : Path) (e : Entry) :
    (t.put path e).get? q = if q = path then some e else t.get? q := by
  rw [put]
  split_ifs with hthere hq hq
  · subst hq
    obtain ⟨old, hold⟩ := Option.isSome_iff_exists.1 hthere
    rw [get?] at hold
    rw [get?, lookup_replace, if_pos rfl, hold, Option.map_some]
  · rw [get?, lookup_replace, if_neg hq, get?]
  · subst hq
    rw [Option.not_isSome_iff_eq_none, get?] at hthere
    rw [get?, List.lookup_append, hthere, Option.none_or, List.lookup_cons_self]
  · have hne : (q == path) = false := beq_eq_false_iff_ne.2 hq
    rw [get?, List.lookup_append, List.lookup_cons, hne, List.lookup_nil, Option.or_none, get?]

theorem get?_write (h : t.write path bytes = .ok t') (q : Path) :
    t'.get? q = if q = path then some (.file bytes) else t.get? q := by
  have hput : t' = t.put path (.file bytes) := by
    rw [write] at h
    split at h
    · cases h
    · exact (Except.ok.inj h).symm
    · split_ifs at h
      exact (Except.ok.inj h).symm
  rw [hput, get?_put]

theorem write_new (hnew : t.get? path = none) (hdir : t.get? path.dropLast = some .directory) :
    t.write path bytes = .ok (t.put path (.file bytes)) := by
  rw [write, hnew]
  exact if_pos hdir

theorem write_over {old : List UInt8} (hold : t.get? path = some (.file old)) :
    t.write path bytes = .ok (t.put path (.file bytes)) := by
  rw [write, hold]

theorem readText_of_get? {text : String} (h : t.get? path = some (.file bytes))
    (hbytes : Utf8.decode? bytes = some text) : t.readText path = .ok text := by
  simp only [readText, h, hbytes]

theorem isFile_congr (h : t'.get? q = t.get? q) : t'.isFile q = t.isFile q := by
  rw [isFile, isFile, h]

end SearchQuery.FileTree
