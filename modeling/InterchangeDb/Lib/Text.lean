import InterchangeDb.Lib.Bytes

/-! Text files of lines of words: splitting, decimal numbers and hexadecimal byte strings, with round trips. -/
namespace InterchangeDb
open List
namespace Text

/-- The words of a text, as runs without blanks. -/
def wordsFrom : List Char → List Char → List (List Char)
  | cur, [] => if cur = [] then [] else [cur]
  | cur, c::cs =>
    if c.isWhitespace then
      if cur = [] then wordsFrom [] cs else cur :: wordsFrom [] cs
    else wordsFrom (cur ++ [c]) cs

def words (cs : List Char) : List (List Char) := wordsFrom [] cs

def unwords : List (List Char) → List Char
  | [] => []
  | [w] => w
  | w::ws => w ++ ' ' :: unwords ws

/-- The lines of a text, the last one without its line break. -/
def linesFrom : List Char → List Char → List (List Char)
  | cur, [] => [cur]
  | cur, c::cs => if c = '\n' then cur :: linesFrom [] cs else linesFrom (cur ++ [c]) cs

def lines (cs : List Char) : List (List Char) := linesFrom [] cs

/-- The characters of a text are tested one by one, not those of the whole alphabet. -/
instance decidableAll (w : List Char) (p : Char → Prop) [DecidablePred p] : Decidable (∀ c ∈ w, p c) := List.decidableBAll p w

def IsWord (w : List Char) : Prop := w ≠ [] ∧ ∀ c ∈ w, c.isWhitespace = false

instance (w : List Char) : Decidable (IsWord w) := inferInstanceAs (Decidable (_ ∧ _))

private theorem wordsFrom_word (w : List Char) (hw : ∀ c ∈ w, c.isWhitespace = false) (cur cs : List Char) :
    wordsFrom cur (w ++ cs) = wordsFrom (cur ++ w) cs := by
  induction w generalizing cur with
  | nil => simp
  | cons c w ih =>
    have hc : c.isWhitespace = false := hw c mem_cons_self
    rw [cons_append,wordsFrom,hc]
    simp only [Bool.false_eq_true,if_false]
    rw [ih (fun x hx => hw x (mem_cons_of_mem _ hx))]
    simp

theorem words_unwords {ws : List (List Char)} (h : ∀ w ∈ ws, IsWord w) : words (unwords ws) = ws := by
  unfold words
  induction ws with
  | nil => rfl
  | cons w ws ih =>
    obtain ⟨hne,hw⟩ := h w mem_cons_self
    have ih' := ih (fun x hx => h x (mem_cons_of_mem _ hx))
    cases ws with
    | nil =>
      have := wordsFrom_word w hw [] []
      rw [append_nil,nil_append] at this
      rw [unwords,this,wordsFrom,if_neg hne]
    | cons w' ws =>
      rw [unwords,wordsFrom_word w hw,nil_append,wordsFrom]
      rw [if_pos (by decide),if_neg hne,ih']
      simp

theorem lines_line {l : List Char} (hl : '\n' ∉ l) (cs : List Char) : lines (l ++ '\n' :: cs) = l :: lines cs := by
  have hfrom : ∀ cur, linesFrom cur (l ++ '\n' :: cs) = (cur ++ l) :: linesFrom [] cs := by
    induction l with
    | nil => simp [linesFrom]
    | cons c l ih =>
      intro cur
      have hc : c ≠ '\n' := fun h => hl (h ▸ mem_cons_self)
      rw [cons_append,linesFrom,if_neg hc,ih (fun h => hl (mem_cons_of_mem _ h))]
      simp
  exact hfrom []

theorem lines_append (cs ds : List Char) : lines (cs ++ '\n' :: ds) = lines cs ++ lines ds := by
  have hfrom : ∀ cur, linesFrom cur (cs ++ '\n' :: ds) = linesFrom cur cs ++ linesFrom [] ds := by
    induction cs with
    | nil => simp [linesFrom]
    | cons c cs ih =>
      intro cur
      rw [cons_append,linesFrom,linesFrom]
      split_ifs
      · rw [ih,cons_append]
      · exact ih _
  exact hfrom []

theorem newline_notMem_unwords {ws : List (List Char)} (h : ∀ w ∈ ws, IsWord w) : '\n' ∉ unwords ws := by
  have hword : ∀ w, IsWord w → '\n' ∉ w := fun w hw hn => by
    have := hw.2 _ hn
    revert this
    decide
  induction ws with
  | nil => simp [unwords]
  | cons w ws ih =>
    have hw := hword w (h w mem_cons_self)
    cases ws with
    | nil => exact hw
    | cons v ws =>
      have hrest := ih (fun x hx => h x (mem_cons_of_mem _ hx))
      simp only [unwords,mem_append,mem_cons,not_or]
      exact ⟨hw,by decide,hrest⟩

theorem unwords_ends {ws : List (List Char)} (hne : ws ≠ []) (h : ∀ w ∈ ws, IsWord w) :
    (∃ c cs, unwords ws = c::cs ∧ c.isWhitespace = false) ∧ ∃ cs c, unwords ws = cs ++ [c] ∧ c.isWhitespace = false := by
  have hfirst : ∀ w, IsWord w → ∃ c cs, w = c::cs ∧ c.isWhitespace = false := fun w hw => by
    cases w with
    | nil => exact (hw.1 rfl).elim
    | cons c cs => exact ⟨c,cs,rfl,hw.2 c mem_cons_self⟩
  have hlast : ∀ w, IsWord w → ∃ cs c, w = cs ++ [c] ∧ c.isWhitespace = false := fun w hw => by
    obtain ⟨cs,c,rfl⟩ := (eq_nil_or_concat' w).resolve_left hw.1
    exact ⟨cs,c,rfl,hw.2 c (by simp)⟩
  induction ws with
  | nil => exact (hne rfl).elim
  | cons w ws ih =>
    have hw := h w mem_cons_self
    cases ws with
    | nil => exact ⟨hfirst w hw,hlast w hw⟩
    | cons v ws =>
      obtain ⟨c,cs,rfl,hc⟩ := hfirst w hw
      obtain ⟨-,ds,d,hd,hdb⟩ := ih (by simp) (fun x hx => h x (mem_cons_of_mem _ hx))
      refine ⟨⟨c,_,rfl,hc⟩,c::cs ++ ' '::ds,d,?_,hdb⟩
      rw [unwords,hd]
      · simp
      · simp

def decimal (n : Nat) : List Char := Nat.toDigits 10 n

/-- An optional plus sign and digits, below a bound. -/
def parseNat (bound : Nat) (cs : List Char) : Option Nat :=
  let digits := if cs.head? = some '+' then cs.tail else cs
  if digits ≠ [] ∧ (∀ c ∈ digits, c.isDigit = true) ∧ Nat.ofDigitChars 10 digits 0 < bound then
    some (Nat.ofDigitChars 10 digits 0)
  else none

private theorem isDigit_decimal {n : Nat} {c : Char} (h : c ∈ decimal n) : c.isDigit = true :=
  Nat.isDigit_of_mem_toDigits (by decide) (by decide) h

theorem parseNat_decimal {n bound : Nat} (h : n < bound) : parseNat bound (decimal n) = some n := by
  have hplus : (decimal n).head? ≠ some '+' := by
    intro hh
    have := isDigit_decimal (mem_of_mem_head? hh)
    revert this
    decide
  have hval : Nat.ofDigitChars 10 (decimal n) 0 = n := Nat.ofDigitChars_toDigits (by decide) (by decide)
  unfold parseNat
  rw [if_neg hplus]
  simp only [hval]
  exact if_pos ⟨Nat.toDigits_ne_nil,fun c hc => isDigit_decimal hc,h⟩

theorem isWord_decimal (n : Nat) : IsWord (decimal n) := by
  refine ⟨Nat.toDigits_ne_nil,fun c hc => ?_⟩
  have hd := isDigit_decimal hc
  by_contra hw
  rw [Bool.not_eq_false] at hw
  simp only [Char.isWhitespace,Char.isDigit,Bool.or_eq_true,Bool.and_eq_true,decide_eq_true_eq] at hw hd
  rcases hw with ((rfl | rfl) | rfl) | rfl <;> revert hd <;> decide

/-- Two lower-case digits for every byte. -/
def hexEncode (bs : Bytes) : List Char := bs.flatMap (fun b => [Nat.digitChar (b.val / 16), Nat.digitChar (b.val % 16)])

def hexDigit (c : Char) : Option Nat :=
  if '0' ≤ c ∧ c ≤ '9' then some (c.toNat - '0'.toNat)
  else if 'a' ≤ c ∧ c ≤ 'f' then some (c.toNat - 'a'.toNat + 10)
  else if 'A' ≤ c ∧ c ≤ 'F' then some (c.toNat - 'A'.toNat + 10)
  else none

/-- A byte from two characters; a sign may stand for the first digit. -/
def hexByte (a b : Char) : Option Byte :=
  if a = '+' then (hexDigit b).map (Fin.ofNat 256)
  else (hexDigit a).bind (fun x => (hexDigit b).map (fun y => Fin.ofNat 256 (16 * x + y)))

/-- Bytes from pairs of digits, or the offset of the first bad pair. -/
def hexPairs : Nat → List Char → Except Nat Bytes
  | i, a::b::cs =>
    match hexByte a b with
    | none => .error i
    | some byte => (hexPairs (i+2) cs).map (byte :: ·)
  | _, _ => .ok []

private theorem hexByte_digits : ∀ b : Byte, hexByte (Nat.digitChar (b.val / 16)) (Nat.digitChar (b.val % 16)) = some b := by
  decide +kernel

theorem hexPairs_hexEncode (bs : Bytes) (i : Nat) : hexPairs i (hexEncode bs) = .ok bs := by
  induction bs generalizing i with
  | nil => rfl
  | cons b bs ih =>
    have hcons : hexEncode (b::bs) = Nat.digitChar (b.val / 16) :: Nat.digitChar (b.val % 16) :: hexEncode bs := rfl
    rw [hcons,hexPairs,hexByte_digits]
    simp only [ih]
    rfl

theorem length_hexEncode (bs : Bytes) : (hexEncode bs).length = 2 * bs.length := by
  induction bs with
  | nil => rfl
  | cons b bs ih =>
    simp only [hexEncode,flatMap_cons,length_append,length_cons,length_nil] at *
    omega

private theorem digit_not_blank : ∀ b : Byte, (Nat.digitChar (b.val / 16)).isWhitespace = false ∧
    (Nat.digitChar (b.val % 16)).isWhitespace = false := by decide +kernel

theorem isWord_hexEncode {bs : Bytes} (h : bs ≠ []) : IsWord (hexEncode bs) := by
  refine ⟨?_,fun c hc => ?_⟩
  · cases bs with
    | nil => exact (h rfl).elim
    | cons b bs => simp [hexEncode]
  · obtain ⟨b,-,hb⟩ := mem_flatMap.mp hc
    simp only [mem_cons,not_mem_nil,or_false] at hb
    rcases hb with rfl | rfl
    · exact (digit_not_blank b).1
    · exact (digit_not_blank b).2

end Text
end InterchangeDb
