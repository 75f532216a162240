import SearchQuery.Proofs.Toml.Document
import SearchQuery.Proofs.Toml.Statement
import SearchQuery.Settings.File

/-! Settings come back from the text that is written for them: its statements are read one by one, the
document they make has a table for each section, and every field of a section accepts its own value. -/

namespace SearchQuery.Settings

open Toml

/-- Settings as what one file says that gives them all. -/
def asFile (s : Settings) : SettingsFile :=
  ⟨none, some ⟨some s.shingle.maxOrder, some s.shingle.separator⟩, some ⟨some s.format⟩⟩

/-- The sections of a settings file that gives all settings. -/
def sections (s : Settings) : List (String × Value) :=
  [("shingle", .table [("max_order", .integer s.shingle.maxOrder.toNat),
      ("separator", .text s.shingle.separator)]),
    ("output", .table [("format", .text s.format.name)])]

theorem toToml_toList (s : Settings) : s.toToml.toList =
    '[' :: ("shingle".toList ++ ']' :: '\n' ::
      ("max_order".toList ++ ' ' :: '=' :: ' ' ::
        (Nat.toDigits 10 s.shingle.maxOrder.toNat ++ '\n' ::
      ("separator".toList ++ ' ' :: '=' :: ' ' ::
        ((writeText s.shingle.separator).toList ++ '\n' :: '\n' ::
    '[' :: ("output".toList ++ ']' :: '\n' ::
      ("format".toList ++ ' ' :: '=' :: ' ' ::
        ((writeText s.format.name).toList ++ ['\n'])))))))) := by
  unfold toToml
  simp only [String.toList_append, String.toList_ofList, List.append_assoc]
  rfl

theorem read_toToml_sections (s : Settings) : Toml.read s.toToml = some s.sections := by
  have hmark : ∀ r, dropByteOrderMark ('[' :: r) = '[' :: r := fun _ => rfl
  rw [Toml.read, toToml_toList, hmark,
    statements_header (by decide) (Draft.head_new rfl),
    statements_number (by decide) (Draft.assign_headed rfl rfl),
    statements_text (by decide) (Draft.assign_headed rfl rfl), statements_blank,
    statements_header (by decide) (Draft.head_new rfl),
    statements_text (by decide) (Draft.assign_headed rfl rfl), statements_end]
  simp only [String.ofList_toList]
  rfl

theorem count?_toNat (n : UInt64) : SettingsFile.count? (.integer n.toNat) = some n := by
  have hlt : n.toNat < 18446744073709551616 := n.toNat_lt
  rw [SettingsFile.count?, if_pos (by omega), Int.toNat_natCast]
  exact congrArg some n.ofNat_toNat

theorem format?_name (f : OutputFormat) : SettingsFile.format? (.text f.name) = some f := by
  cases f <;> rfl

theorem shingle?_of_fields {v a b : Value} {n : UInt64} {separator : String}
    (hfields : SettingsFile.sectionFields ["max_order", "separator"] v = some [some a, some b])
    (ha : SettingsFile.count? a = some n) (hb : SettingsFile.text? b = some separator) :
    SettingsFile.shingle? v = some ⟨some n, some separator⟩ := by
  simp only [SettingsFile.shingle?, hfields, SettingsFile.setting, ha, hb, Option.map_some,
    Option.bind_eq_bind, Option.bind_some, Option.pure_def]

theorem output?_of_fields {v a : Value} {f : OutputFormat}
    (hfields : SettingsFile.sectionFields ["format"] v = some [some a])
    (ha : SettingsFile.format? a = some f) : SettingsFile.output? v = some ⟨some f⟩ := by
  simp only [SettingsFile.output?, hfields, SettingsFile.setting, ha, Option.map_some,
    Option.bind_eq_bind, Option.bind_some, Option.pure_def]

theorem ofEntries_of_fields {entries : List (String × Value)} {v w : Value} {shingle : ShingleSection}
    {output : OutputSection}
    (hfields : SettingsFile.fieldsOf ["root", "shingle", "output"] entries =
      some [none, some v, some w])
    (hv : SettingsFile.shingle? v = some shingle) (hw : SettingsFile.output? w = some output) :
    SettingsFile.ofEntries entries = some ⟨none, some shingle, some output⟩ := by
  simp only [SettingsFile.ofEntries, hfields, SettingsFile.setting, hv, hw, Option.map_some,
    Option.bind_eq_bind, Option.bind_some, Option.pure_def]

theorem ofEntries_sections (s : Settings) : SettingsFile.ofEntries s.sections = some s.asFile :=
  ofEntries_of_fields rfl (shingle?_of_fields rfl (count?_toNat _) rfl)
    (output?_of_fields rfl (format?_name _))

/-- A file that gives all settings leaves nothing to the files behind it. -/
theorem overlay_asFile (s t : Settings) : overlay s.asFile t = s := rfl

/-- Settings survive being written and read back, and what is written ends no search. -/
theorem read_toToml (s : Settings) : ∃ file, SettingsFile.read s.toToml = some file ∧
    file.root = none ∧ merge [file] = s := by
  refine ⟨s.asFile, ?_, rfl, overlay_asFile s default⟩
  rw [SettingsFile.read, read_toToml_sections, Option.bind_some, ofEntries_sections]

/-! ### The file that a user starts from

Each of its lines is a comment or empty, so that the reader passes over all of them. -/

theorem filler_commented {line : String} (h : line.toList.all Toml.isAllowed = true)
    (rest : List Char) :
    Toml.filler false ((commented line).toList ++ '\n' :: rest) = Toml.filler false rest := by
  rw [List.all_eq_true] at h
  unfold commented
  split
  · next hline =>
    rw [hline]
    rfl
  · next line' hline =>
    rw [hline] at h ⊢
    exact Toml.filler_comment (fun c hc => h c (List.mem_cons_of_mem _ hc)) rest
  · rw [String.toList_append]
    change Toml.filler true (' ' :: line.toList ++ '\n' :: rest) = _
    refine Toml.filler_comment (fun c hc => ?_) rest
    rcases List.mem_cons.1 hc with rfl | hc
    · rfl
    · exact h c hc

theorem filler_commentedLines {lines : List String}
    (h : ∀ line ∈ lines, line.toList.all Toml.isAllowed = true) :
    Toml.filler false (String.join (lines.map fun line => commented line ++ "\n")).toList =
      some [] := by
  induction lines with
  | nil => rfl
  | cons line lines ih =>
    rw [List.map_cons, String.join_cons, String.toList_append, String.toList_append,
      List.append_assoc]
    exact (filler_commented (h line List.mem_cons_self) _).trans
      (ih fun l hl => h l (List.mem_cons_of_mem _ hl))

theorem read_template : SettingsFile.read template = some ⟨none, none, none⟩ := by
  have hlines : Toml.filler false template.toList = some [] :=
    filler_commentedLines (by decide +kernel)
  rw [SettingsFile.read, Toml.read_of_filler hlines]
  rfl

end SearchQuery.Settings
