import Mathlib.Data.List.Basic
import Mathlib.Tactic.SplitIfs
import RefDoc.Json.Printer

namespace RefDoc.Json

/-- An array or an object that is still open, with what it has so far, and in an object the name of
the member that comes next. -/
inductive Frame where
  | array (items : List Json)
  | object (members : List (String × Json)) (name : String)

inductive Token where
  | mark (c : Char)
  | scalar (v : Json)

inductive Expected where
  | value (frames : List Frame)
  /-- A value or the end of an array. -/
  | firstItem (frames : List Frame)
  | name (members : List (String × Json)) (frames : List Frame)
  /-- A name or the end of an object. -/
  | firstName (frames : List Frame)
  | colon (members : List (String × Json)) (name : String) (frames : List Frame)
  /-- What may stand behind a value. -/
  | behind (v : Json) (frames : List Frame)

namespace Expected

def afterValue (frames : List Frame) : Token → Option Expected
  | .mark '[' => some (.firstItem frames)
  | .mark '\x7b' => some (.firstName frames)
  | .mark _ => none
  | .scalar v => some (.behind v frames)

def afterName (members : List (String × Json)) (frames : List Frame) : Token → Option Expected
  | .scalar (.string s) => some (.colon members s frames)
  | _ => none

/-- What is expected behind a token, if the token is. -/
def after : Expected → Token → Option Expected
  | .value fs, t => afterValue fs t
  | .firstItem fs, .mark ']' => some (.behind (.array []) fs)
  | .firstItem fs, t => afterValue (.array [] :: fs) t
  | .name ms fs, t => afterName ms fs t
  | .firstName fs, .mark '\x7d' => some (.behind (.object []) fs)
  | .firstName fs, t => afterName [] fs t
  | .colon ms key fs, .mark ':' => some (.value (.object ms key :: fs))
  | .behind v (.array vs :: fs), .mark ',' => some (.value (.array (vs ++ [v]) :: fs))
  | .behind v (.array vs :: fs), .mark ']' => some (.behind (.array (vs ++ [v])) fs)
  | .behind v (.object ms key :: fs), .mark ',' => some (.name (ms ++ [(key, v)]) fs)
  | .behind v (.object ms key :: fs), .mark '\x7d' => some (.behind (.object (ms ++ [(key, v)])) fs)
  | _, _ => none

end Expected

inductive Mode where
  | between
  | word (letters : List Char)
  | number (digits : List Char)
  | string (text : List Char)
  /-- Behind a backslash. `high` is the code unit that waits for the second one of its pair. -/
  | escape (text : List Char) (high : Option Nat)
  /-- In the digits of a code unit. -/
  | code (text : List Char) (high : Option Nat) (count value : Nat)
  /-- Behind the first code unit of a pair. -/
  | half (text : List Char) (high : Nat)

def ofLetters? (letters : List Char) : Option Json :=
  if letters = ['n', 'u', 'l', 'l'] then some .null
  else if letters = ['t', 'r', 'u', 'e'] then some (.bool true)
  else if letters = ['f', 'a', 'l', 's', 'e'] then some (.bool false)
  else none

/-- The number with the given digits. It begins with a zero only if that is its one digit. -/
def ofDigits? (digits : List Char) : Option Json :=
  if digits.head? = some '0' ∧ digits ≠ ['0'] then none
  else some (.number (Nat.ofDigitChars 10 digits 0))

def unescape? (c : Char) : Option Char :=
  if c = '"' ∨ c = '\\' ∨ c = '/' then some c
  else if c = 'b' then some '\x08'
  else if c = 'f' then some '\x0c'
  else if c = 'n' then some '\n'
  else if c = 'r' then some '\r'
  else if c = 't' then some '\t'
  else none

def hexValue? (c : Char) : Option Nat :=
  if c.isDigit then some (c.toNat - '0'.toNat)
  else if 'a' ≤ c ∧ c ≤ 'f' then some (c.toNat - 'a'.toNat + 10)
  else if 'A' ≤ c ∧ c ≤ 'F' then some (c.toNat - 'A'.toNat + 10)
  else none

/-- Behind a code unit: one for itself, the first of a pair, or the second. -/
def Mode.ofCode (text : List Char) (high : Option Nat) (n : Nat) : Option Mode :=
  match high with
  | none =>
    if 0xd800 ≤ n ∧ n < 0xdc00 then some (.half text n)
    else if 0xdc00 ≤ n ∧ n < 0xe000 then none
    else some (.string (text ++ [Char.ofNat n]))
  | some h =>
    if 0xdc00 ≤ n ∧ n < 0xe000 then
      some (.string (text ++ [Char.ofNat (0x10000 + 0x400 * (h - 0xd800) + (n - 0xdc00))]))
    else none

/-- A reader that goes through a text character by character, with white space between all parts of
the text and all escapes in strings. -/
structure Reader where
  mode : Mode := .between
  expected : Expected

namespace Reader

def start (e : Expected) (c : Char) : Option Reader :=
  if c = ' ' ∨ c = '\t' ∨ c = '\n' ∨ c = '\r' then some ⟨.between, e⟩
  else if c = '"' then some ⟨.string [], e⟩
  else if c.isDigit then some ⟨.number [c], e⟩
  else if c.isLower then some ⟨.word [c], e⟩
  else (e.after (.mark c)).map (⟨.between, ·⟩)

def settle (r : Reader) : Option Expected :=
  match r.mode with
  | .between => some r.expected
  | .word letters => (ofLetters? letters).bind fun v => r.expected.after (.scalar v)
  | .number digits => (ofDigits? digits).bind fun v => r.expected.after (.scalar v)
  | _ => none

def step (r : Reader) (c : Char) : Option Reader :=
  match r.mode with
  | .between => start r.expected c
  | .word letters =>
    if c.isLower then some { r with mode := .word (letters ++ [c]) }
    else r.settle.bind (start · c)
  | .number digits =>
    if c.isDigit then some { r with mode := .number (digits ++ [c]) }
    else r.settle.bind (start · c)
  | .string text =>
    if c = '"' then
      (r.expected.after (.scalar (.string (String.ofList text)))).map (⟨.between, ·⟩)
    else if c = '\\' then some { r with mode := .escape text none }
    else if c < ' ' then none
    else some { r with mode := .string (text ++ [c]) }
  | .escape text high =>
    if c = 'u' then some { r with mode := .code text high 0 0 }
    else if high.isSome then none
    else (unescape? c).map fun d => { r with mode := .string (text ++ [d]) }
  | .code text high count value =>
    (hexValue? c).bind fun d =>
      if count < 3 then some { r with mode := .code text high (count + 1) (16 * value + d) }
      else (Mode.ofCode text high (16 * value + d)).map fun m => { r with mode := m }
  | .half text high => if c = '\\' then some { r with mode := .escape text (some high) } else none

end Reader

/-- The value that a text is the written form of. -/
def read? (text : String) : Option Json := do
  let r ← text.toList.foldlM Reader.step { expected := .value [] }
  match ← r.settle with
  | .behind v [] => some v
  | _ => none

/-- The reader gets from one state to another over a text. -/
def Reads (r : Reader) (text : List Char) (r' : Reader) : Prop :=
  text.foldlM Reader.step r = some r'

namespace Reads

variable {r r' r'' : Reader} {x y : List Char} {c : Char}

theorem nil (r : Reader) : Reads r [] r := rfl

theorem append (h : Reads r x r') (h' : Reads r' y r'') : Reads r (x ++ y) r'' := by
  unfold Reads at *
  rw [List.foldlM_append, h]
  exact h'

theorem single (h : r.step c = some r') : Reads r [c] r' := by
  simp [Reads, h]

theorem cons (h : r.step c = some r') (h' : Reads r' x r'') : Reads r (c :: x) r'' :=
  (single h).append h'

end Reads

section Strings

variable {text : List Char} {e e' : Expected}

theorem hexValue?_digitChar {n : Nat} (h : n < 16) : hexValue? n.digitChar = some n := by
  revert n
  decide

theorem reads_escapeCode {c : Char} (h : c < ' ') :
    Reads ⟨.string text, e⟩ (escapeCode c) ⟨.string (text ++ [c]), e⟩ := by
  have hc : c.toNat < 32 := h
  have hhigh := hexValue?_digitChar (n := c.toNat / 16) (by omega)
  have hlow := hexValue?_digitChar (n := c.toNat % 16) (by omega)
  have hzero : hexValue? '0' = some 0 := by decide
  have hsum : 16 * (c.toNat / 16) + c.toNat % 16 = c.toNat := by omega
  have hcode : Mode.ofCode text none c.toNat = some (.string (text ++ [c])) := by
    rw [Mode.ofCode, if_neg (by omega), if_neg (by omega), Char.ofNat_toNat]
  simp [Reads, escapeCode, Reader.step, hhigh, hlow, hzero, hsum, hcode]

theorem reads_backslash {c d : Char} (h : unescape? c = some d) (hc : c ≠ 'u') :
    Reads ⟨.string text, e⟩ ['\\', c] ⟨.string (text ++ [d]), e⟩ := by
  simp [Reads, Reader.step, h, hc]

theorem reads_escape (c : Char) :
    Reads ⟨.string text, e⟩ (escape c) ⟨.string (text ++ [c]), e⟩ := by
  unfold escape
  split_ifs with hquote hslash hn hr ht hb hf hcontrol
  · rw [beq_iff_eq.1 hquote]
    exact reads_backslash rfl (by decide)
  · rw [beq_iff_eq.1 hslash]
    exact reads_backslash rfl (by decide)
  · rw [beq_iff_eq.1 hn]
    exact reads_backslash rfl (by decide)
  · rw [beq_iff_eq.1 hr]
    exact reads_backslash rfl (by decide)
  · rw [beq_iff_eq.1 ht]
    exact reads_backslash rfl (by decide)
  · rw [beq_iff_eq.1 hb]
    exact reads_backslash rfl (by decide)
  · rw [beq_iff_eq.1 hf]
    exact reads_backslash rfl (by decide)
  · exact reads_escapeCode hcontrol
  · have hq : c ≠ '"' := by simpa using hquote
    have hs : c ≠ '\\' := by simpa using hslash
    exact .single (by simp [Reader.step, hq, hs, hcontrol])

theorem reads_escapes (s : List Char) :
    Reads ⟨.string text, e⟩ (s.flatMap escape) ⟨.string (text ++ s), e⟩ := by
  induction s generalizing text with
  | nil => simpa using Reads.nil ⟨.string text, e⟩
  | cons c s ih =>
    rw [List.flatMap_cons, List.append_cons text c s]
    exact (reads_escape c).append ih

theorem reads_quote {s : String} (h : e.after (.scalar (.string s)) = some e') :
    Reads ⟨.between, e⟩ (quote s) ⟨.between, e'⟩ := by
  have hclose : (⟨.string s.toList, e⟩ : Reader).step '"' = some ⟨.between, e'⟩ := by
    simp [Reader.step, h]
  have htext : Reads ⟨.string [], e⟩ (s.toList.flatMap escape) ⟨.string s.toList, e⟩ :=
    reads_escapes s.toList
  exact .append (.cons rfl htext) (.single hclose)

end Strings

section Numbers

variable {e : Expected}

theorem reads_digits {ds digits : List Char} (h : ∀ d ∈ ds, d.isDigit = true) :
    Reads ⟨.number digits, e⟩ ds ⟨.number (digits ++ ds), e⟩ := by
  induction ds generalizing digits with
  | nil => simpa using Reads.nil ⟨.number digits, e⟩
  | cons d ds ih =>
    rw [List.append_cons digits d ds]
    refine .cons ?_ (ih fun d' hd' => h d' (List.mem_cons_of_mem d hd'))
    simp [Reader.step, h d List.mem_cons_self]

theorem head?_toDigits {n : Nat} (h : n ≠ 0) : (Nat.toDigits 10 n).head? ≠ some '0' := by
  induction n using Nat.strongRecOn with
  | ind n ih =>
    by_cases hn : n < 10
    · rw [Nat.toDigits_of_lt_base hn]
      exact fun hzero => h (Nat.digitChar_eq_zero.1 (Option.some.inj hzero))
    · rw [Nat.toDigits_of_base_le (by decide) (by omega),
        List.head?_append_of_ne_nil _ Nat.toDigits_ne_nil]
      exact ih (n / 10) (by omega) (by omega)

theorem ofDigits?_toDigits (n : Nat) : ofDigits? (Nat.toDigits 10 n) = some (.number n) := by
  have h : ¬((Nat.toDigits 10 n).head? = some '0' ∧ Nat.toDigits 10 n ≠ ['0']) := by
    rintro ⟨hzero, hne⟩
    by_cases hn : n = 0
    · exact hne (by rw [hn, Nat.toDigits_zero])
    · exact head?_toDigits hn hzero
  rw [ofDigits?, if_neg h, Nat.ofDigitChars_ten_toDigits]

theorem start_digit {d : Char} (h : d.isDigit = true) :
    Reader.start e d = some ⟨.number [d], e⟩ := by
  have hblank : ¬(d = ' ' ∨ d = '\t' ∨ d = '\n' ∨ d = '\r') := by
    rintro (rfl | rfl | rfl | rfl) <;> contradiction
  have hquote : d ≠ '"' := by
    rintro rfl
    contradiction
  rw [Reader.start, if_neg hblank, if_neg hquote, if_pos h]

theorem reads_number (n : Nat) :
    Reads ⟨.between, e⟩ (Nat.toDigits 10 n) ⟨.number (Nat.toDigits 10 n), e⟩ := by
  have hdigit : ∀ d ∈ Nat.toDigits 10 n, d.isDigit = true := fun d hd =>
    Nat.isDigit_of_mem_toDigits (by decide) (by decide) hd
  obtain ⟨d, ds, hds⟩ := List.exists_cons_of_ne_nil (Nat.toDigits_ne_nil (b := 10) (n := n))
  rw [hds] at hdigit ⊢
  obtain ⟨hd, hrest⟩ := List.forall_mem_cons.1 hdigit
  exact .cons (start_digit hd) (reads_digits hrest)

end Numbers

def IsMark (c : Char) : Prop :=
  ¬(c = ' ' ∨ c = '\t' ∨ c = '\n' ∨ c = '\r') ∧ c ≠ '"' ∧ c.isDigit = false ∧ c.isLower = false

instance (c : Char) : Decidable (IsMark c) :=
  inferInstanceAs (Decidable (_ ∧ _))

/-- What the reader has read can be complete, and another thing is expected then. A number or a word
is complete only with the next character. -/
structure Settles (r : Reader) (e : Expected) : Prop where
  settle : r.settle = some e
  step : ∀ c, c.isDigit = false → c.isLower = false → r.step c = Reader.start e c

namespace Settles

variable {r : Reader} {e e' : Expected}

theorem between (e : Expected) : Settles ⟨.between, e⟩ e :=
  ⟨rfl, fun _ _ _ => rfl⟩

theorem word {letters : List Char} {v : Json} (hv : ofLetters? letters = some v)
    (he : e.after (.scalar v) = some e') : Settles ⟨.word letters, e⟩ e' := by
  have hsettle : (⟨.word letters, e⟩ : Reader).settle = some e' := by
    simp [Reader.settle, hv, he]
  exact ⟨hsettle, fun c _ hc => by simp [Reader.step, hc, hsettle]⟩

theorem number {digits : List Char} {v : Json} (hv : ofDigits? digits = some v)
    (he : e.after (.scalar v) = some e') : Settles ⟨.number digits, e⟩ e' := by
  have hsettle : (⟨.number digits, e⟩ : Reader).settle = some e' := by
    simp [Reader.settle, hv, he]
  exact ⟨hsettle, fun c hc _ => by simp [Reader.step, hc, hsettle]⟩

theorem mark (h : Settles r e) {c : Char} (hc : IsMark c)
    (he : e.after (.mark c) = some e') : Reads r [c] ⟨.between, e'⟩ := by
  obtain ⟨hblank, hquote, hdigit, hlower⟩ := hc
  refine .single ?_
  rw [h.step c hdigit hlower, Reader.start, if_neg hblank, if_neg hquote, hdigit, hlower]
  simp [he]

theorem blank (h : Settles r e) {c : Char} (hc : c = ' ' ∨ c = '\n') :
    r.step c = some ⟨.between, e⟩ := by
  rcases hc with rfl | rfl
  · exact h.step ' ' rfl rfl
  · exact h.step '\n' rfl rfl

theorem newline (h : Settles r e) (depth : Nat) : Reads r (newline depth) ⟨.between, e⟩ := by
  have hspaces : ∀ n, Reads ⟨.between, e⟩ (List.replicate n ' ') ⟨.between, e⟩ := by
    intro n
    induction n with
    | zero => exact .nil _
    | succ n ih => exact .cons ((between e).blank (.inl rfl)) ih
  exact .cons (h.blank (.inr rfl)) (hspaces (2 * depth))

end Settles

/-- A value is expected, in the given open arrays and objects. -/
inductive Awaits : Expected → List Frame → Prop where
  | value (fs : List Frame) : Awaits (.value fs) fs
  | first (fs : List Frame) : Awaits (.firstItem fs) (.array [] :: fs)

theorem Awaits.after_scalar {e : Expected} {fs : List Frame} (h : Awaits e fs) (v : Json) :
    e.after (.scalar v) = some (.behind v fs) := by
  cases h <;> rfl

theorem Awaits.after_bracket {e : Expected} {fs : List Frame} (h : Awaits e fs) :
    e.after (.mark '[') = some (.firstItem fs) := by
  cases h <;> rfl

theorem Awaits.after_brace {e : Expected} {fs : List Frame} (h : Awaits e fs) :
    e.after (.mark '\x7b') = some (.firstName fs) := by
  cases h <;> rfl

theorem reads_name {e : Expected} {ms : List (String × Json)} {fs : List Frame} (key : String)
    (h : e.after (.scalar (.string key)) = some (.colon ms key fs)) :
    Reads ⟨.between, e⟩ (quote key ++ [':', ' ']) ⟨.between, .value (.object ms key :: fs)⟩ :=
  (reads_quote h).append
    (((Settles.between _).mark (by decide) rfl).append
      (.single ((Settles.between _).blank (.inl rfl))))

mutual

theorem reads_print {e : Expected} {fs : List Frame} (h : Awaits e fs) (depth : Nat) :
    ∀ v, ∃ r, Reads ⟨.between, e⟩ (print depth v) r ∧ Settles r (.behind v fs)
  | .null => ⟨_, rfl, .word rfl (h.after_scalar _)⟩
  | .bool true => ⟨_, rfl, .word rfl (h.after_scalar _)⟩
  | .bool false => ⟨_, rfl, .word rfl (h.after_scalar _)⟩
  | .number n => ⟨_, reads_number n, .number (ofDigits?_toDigits n) (h.after_scalar _)⟩
  | .string s => ⟨_, reads_quote (h.after_scalar (.string s)), .between _⟩
  | .array [] => by
    have hopen := (Settles.between e).mark (by decide) h.after_bracket
    exact ⟨_, hopen.append ((Settles.between _).mark (by decide) rfl), .between _⟩
  | .array (v :: vs) => by
    have hopen := ((Settles.between e).mark (by decide) h.after_bracket).append
      ((Settles.between _).newline (depth + 1))
    obtain ⟨r, hv, hr⟩ := reads_print (.first fs) (depth + 1) v
    have hvs := reads_printItems hr (depth + 1) depth vs
    refine ⟨_, ?_, .between _⟩
    simpa only [print, List.append_assoc, List.cons_append, List.nil_append] using
      (hopen.append hv).append hvs
  | .object [] => by
    have hopen := (Settles.between e).mark (by decide) h.after_brace
    exact ⟨_, hopen.append ((Settles.between _).mark (by decide) rfl), .between _⟩
  | .object ((key, v) :: ms) => by
    have hopen := ((Settles.between e).mark (by decide) h.after_brace).append
      ((Settles.between _).newline (depth + 1))
    have hname := hopen.append (reads_name key rfl)
    obtain ⟨r, hv, hr⟩ := reads_print (.value (.object [] key :: fs)) (depth + 1) v
    have hms := reads_printMembers hr (depth + 1) depth ms
    refine ⟨_, ?_, .between _⟩
    simpa only [print, List.append_assoc, List.cons_append, List.nil_append] using
      (hname.append hv).append hms

theorem reads_printItems {r : Reader} {v : Json} {vs : List Json} {fs : List Frame}
    (h : Settles r (.behind v (.array vs :: fs))) (depth outer : Nat) :
    ∀ ws, Reads r (printItems depth ws ++ newline outer ++ [']'])
      ⟨.between, .behind (.array (vs ++ v :: ws)) fs⟩
  | [] => (h.newline outer).append ((Settles.between _).mark (by decide) rfl)
  | w :: ws => by
    have hcomma := (h.mark (c := ',') (by decide) rfl).append ((Settles.between _).newline depth)
    obtain ⟨r', hw, hr'⟩ := reads_print (.value (.array (vs ++ [v]) :: fs)) depth w
    have hws := reads_printItems hr' depth outer ws
    simpa only [printItems, List.append_assoc, List.cons_append, List.nil_append] using
      (hcomma.append hw).append hws

theorem reads_printMembers {r : Reader} {key : String} {v : Json} {ms : List (String × Json)}
    {fs : List Frame} (h : Settles r (.behind v (.object ms key :: fs))) (depth outer : Nat) :
    ∀ ns, Reads r (printMembers depth ns ++ newline outer ++ ['\x7d'])
      ⟨.between, .behind (.object (ms ++ (key, v) :: ns)) fs⟩
  | [] => (h.newline outer).append ((Settles.between _).mark (by decide) rfl)
  | (key', w) :: ns => by
    have hcomma := (h.mark (c := ',') (by decide) rfl).append ((Settles.between _).newline depth)
    have hname := hcomma.append (reads_name key' rfl)
    obtain ⟨r', hw, hr'⟩ := reads_print (.value (.object (ms ++ [(key, v)]) key' :: fs)) depth w
    have hns := reads_printMembers hr' depth outer ns
    simpa only [printMembers, List.append_assoc, List.cons_append, List.nil_append] using
      (hname.append hw).append hns

end

theorem read?_print (v : Json) : read? (String.ofList (print 0 v ++ ['\n'])) = some v := by
  obtain ⟨r, hv, hr⟩ := reads_print (.value []) 0 v
  have hall : Reads ⟨.between, .value []⟩ (print 0 v ++ ['\n']) ⟨.between, .behind v []⟩ :=
    hv.append (.single (hr.blank (.inr rfl)))
  unfold Reads at hall
  simp [read?, hall, Reader.settle]

example : read? "\x7b\"a\":[1 ,\"\\u0041\\ud83d\\ude00\"]\x7d" =
    some (.object [("a", .array [.number 1, .string "A😀"])]) := rfl

example : read? "[1,]" = none := rfl

end RefDoc.Json
