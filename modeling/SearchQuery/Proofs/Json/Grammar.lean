import SearchQuery.Toml.Value

/-! JSON as its standard has it, said without a reader: which texts a value may be written as. Blanks may
stand around every value and name, a number may have a fraction and an exponent, and a code point may be
escaped where it need not be; above the basic plane it takes two escapes. -/

namespace SearchQuery.Json

inductive Value where
  | null
  | bool (b : Bool)
  | number (q : Rat)
  | text (s : String)
  | list (items : List Value)
  /-- In the order of the text; nothing keeps a name from being there twice. -/
  | object (members : List (String × Value))

def isBlank (c : Char) : Bool := c == ' ' || c == '\t' || c == '\n' || c == '\r'

def Blank (cs : List Char) : Prop := ∀ c ∈ cs, isBlank c = true

/-! ### Numbers -/

def Digits (ds : List Char) : Prop := ds ≠ [] ∧ ∀ d ∈ ds, d.isDigit = true

/-- Digits without a zero in front, unless zero is all there is. -/
def Whole (ds : List Char) : Prop := Digits ds ∧ (ds.head? = some '0' → ds = ['0'])

def natural (ds : List Char) : Nat := Nat.ofDigitChars 10 ds 0

inductive Fraction : List Char → List Char → Prop
  | none : Fraction [] []
  | some {ds : List Char} (h : Digits ds) : Fraction ds ('.' :: ds)

inductive Exponent : Int → List Char → Prop
  | none : Exponent 0 []
  | unsigned {e : Char} {ds : List Char} (he : e = 'e' ∨ e = 'E') (h : Digits ds) :
    Exponent (natural ds) (e :: ds)
  | plus {e : Char} {ds : List Char} (he : e = 'e' ∨ e = 'E') (h : Digits ds) :
    Exponent (natural ds) (e :: '+' :: ds)
  | minus {e : Char} {ds : List Char} (he : e = 'e' ∨ e = 'E') (h : Digits ds) :
    Exponent (-natural ds) (e :: '-' :: ds)

/-- The number that digits before and behind the point make with an exponent. -/
def decimal (ws fs : List Char) (k : Int) : Rat := natural (ws ++ fs) * 10 ^ (k - fs.length)

inductive Decimal : Rat → List Char → Prop
  | mk {ws fs cs ds : List Char} {k : Int} (hws : Whole ws) (hfs : Fraction fs cs)
      (hk : Exponent k ds) : Decimal (decimal ws fs k) (ws ++ (cs ++ ds))

inductive Number : Rat → List Char → Prop
  | plain {q : Rat} {cs : List Char} (h : Decimal q cs) : Number q cs
  | minus {q : Rat} {cs : List Char} (h : Decimal q cs) : Number (-q) ('-' :: cs)

/-! ### Texts -/

/-- What a letter stands for behind a backslash. -/
def letter? : Char → Option Char
  | '"' => some '"'
  | '\\' => some '\\'
  | '/' => some '/'
  | 'b' => some '\x08'
  | 'f' => some '\x0c'
  | 'n' => some '\n'
  | 'r' => some '\r'
  | 't' => some '\t'
  | _ => none

inductive Code : Nat → List Char → Prop
  | mk {a b c d : Char} {i j k l : Nat} (ha : Toml.hexValue? a = some i)
      (hb : Toml.hexValue? b = some j) (hc : Toml.hexValue? c = some k)
      (hd : Toml.hexValue? d = some l) :
    Code (((i * 16 + j) * 16 + k) * 16 + l) [a, b, c, d]

/-- One code point between quotes. Half of a pair is none. -/
inductive Spelled : Char → List Char → Prop
  | plain {c : Char} (hcontrol : 0x20 ≤ c.toNat) (hquote : c ≠ '"') (hslash : c ≠ '\\') : Spelled c [c]
  | letter {c l : Char} (h : letter? l = some c) : Spelled c ['\\', l]
  | code {c : Char} {w : List Char} (h : Code c.toNat w) : Spelled c ('\\' :: 'u' :: w)
  | pair {c : Char} {i j : Nat} {v w : List Char} (hi : i < 0x400) (hv : Code (0xD800 + i) v)
      (hj : j < 0x400) (hw : Code (0xDC00 + j) w) (hc : c.toNat = 0x10000 + i * 0x400 + j) :
    Spelled c ('\\' :: 'u' :: (v ++ '\\' :: 'u' :: w))

/-- A text up to its closing quote. -/
inductive Quoted : List Char → List Char → Prop
  | close : Quoted [] ['"']
  | cons {c : Char} {s w cs : List Char} (h : Spelled c w) (hs : Quoted s cs) : Quoted (c :: s) (w ++ cs)

/-! ### Values -/

/-- What a stretch of a text is. -/
inductive Phrase where
  | value (v : Value)
  /-- A value with blanks around it. -/
  | element (v : Value)
  | elements (vs : List Value)
  | member (m : String × Value)
  | members (ms : List (String × Value))

inductive Written : Phrase → List Char → Prop
  | null : Written (.value .null) ['n', 'u', 'l', 'l']
  | yes : Written (.value (.bool true)) ['t', 'r', 'u', 'e']
  | no : Written (.value (.bool false)) ['f', 'a', 'l', 's', 'e']
  | number {q : Rat} {cs : List Char} (h : Number q cs) : Written (.value (.number q)) cs
  | text {s cs : List Char} (h : Quoted s cs) : Written (.value (.text (String.ofList s))) ('"' :: cs)
  | emptyList {b : List Char} (hb : Blank b) : Written (.value (.list [])) ('[' :: (b ++ [']']))
  | list {vs : List Value} {cs : List Char} (h : Written (.elements vs) cs) :
    Written (.value (.list vs)) ('[' :: (cs ++ [']']))
  | emptyObject {b : List Char} (hb : Blank b) :
    Written (.value (.object [])) ('\x7b' :: (b ++ ['\x7d']))
  | object {ms : List (String × Value)} {cs : List Char} (h : Written (.members ms) cs) :
    Written (.value (.object ms)) ('\x7b' :: (cs ++ ['\x7d']))
  | element {v : Value} {a cs b : List Char} (ha : Blank a) (h : Written (.value v) cs) (hb : Blank b) :
    Written (.element v) (a ++ (cs ++ b))
  | lastElement {v : Value} {cs : List Char} (h : Written (.element v) cs) : Written (.elements [v]) cs
  | moreElements {v : Value} {vs : List Value} {cs ds : List Char} (h : Written (.element v) cs)
      (hs : Written (.elements vs) ds) : Written (.elements (v :: vs)) (cs ++ ',' :: ds)
  | member {s a cs b ds : List Char} {v : Value} (ha : Blank a) (hs : Quoted s cs) (hb : Blank b)
      (h : Written (.element v) ds) :
    Written (.member (String.ofList s, v)) (a ++ '"' :: (cs ++ (b ++ ':' :: ds)))
  | lastMember {m : String × Value} {cs : List Char} (h : Written (.member m) cs) :
    Written (.members [m]) cs
  | moreMembers {m : String × Value} {ms : List (String × Value)} {cs ds : List Char}
      (h : Written (.member m) cs) (hs : Written (.members ms) ds) :
    Written (.members (m :: ms)) (cs ++ ',' :: ds)

end SearchQuery.Json
