import Mathlib.Tactic.SplitIfs
import SearchQuery.Toml.Document

/-! A document that says everything once, header by header, only grows: a header adds its table at the
end, and a setting adds its value at the end of the last table. -/

namespace SearchQuery.Toml

variable {es : Entries} {k name : String} {node old : Node} {v : Value}

namespace Entries

theorem put_new (h : es.lookup k = none) : es.put k node = es ++ [(k, node)] := by
  rw [put, h]
  rfl

theorem ne_of_lookup (h : es.lookup k = none) : ∀ entry ∈ es, entry.1 ≠ k := by
  intro entry hentry heq
  rw [List.lookup_eq_none_iff] at h
  exact bne_iff_ne.1 (h entry hentry) heq.symm

theorem put_last (h : es.lookup k = none) : put (es ++ [(k, old)]) k node = es ++ [(k, node)] := by
  have hthere : ((es ++ [(k, old)]).lookup k).isSome = true := by
    rw [List.lookup_append, h, Option.none_or, List.lookup_cons_self]
    rfl
  rw [put, if_pos hthere, List.map_append, List.map_singleton]
  dsimp only
  rw [if_pos rfl]
  refine congrArg (· ++ [(k, node)]) ?_
  refine (List.map_congr_left fun entry hentry => ?_).trans (List.map_id es)
  exact if_neg (ne_of_lookup h entry hentry)

end Entries

namespace Draft

theorem head_new {d : Draft} (h : d.entries.lookup k = none) :
    d.head [k] = some ⟨d.entries ++ [(k, .table .headed [])], [k]⟩ := by
  have hhead : d.entries.headAt Entries.head [k] = some (d.entries ++ [(k, .table .headed [])]) := by
    rw [← Entries.put_new h]
    simp only [Entries.headAt, List.getLast?_singleton, List.dropLast_singleton, Entries.within,
      Entries.head, h]
  rw [head, hhead]
  rfl

theorem assign_headed {sub : Entries} (hk : es.lookup k = none) (hname : sub.lookup name = none) :
    assign ⟨es ++ [(k, .table .headed sub)], [k]⟩ [name] v =
      some ⟨es ++ [(k, .table .headed (sub ++ [(name, .value v)]))], [k]⟩ := by
  have hlast : (es ++ [(k, Node.table .headed sub)]).lookup k = some (.table .headed sub) := by
    rw [List.lookup_append, hk, Option.none_or, List.lookup_cons_self]
  have hassign : Entries.assignAt [name] v sub = some (sub ++ [(name, .value v)]) := by
    rw [← Entries.put_new hname]
    simp only [Entries.assignAt, List.getLast?_singleton, List.dropLast_singleton, Entries.within,
      Entries.assign, hname]
  simp only [assign, Entries.within, hlast, hassign, Bool.false_and, Bool.false_eq_true, if_false,
    Option.bind_eq_bind, Option.bind_some, Option.pure_def, Entries.put_last hk]

end Draft
end SearchQuery.Toml
