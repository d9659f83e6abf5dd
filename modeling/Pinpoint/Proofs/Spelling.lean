/-
Texts put together from tokens.

Each lemma says what the tokens of a text are when one more token is written
before it.  A sign or a blank may stand before any text; a word or a number
must be followed by the end, a blank or a parenthesis, so that it does not go
on.

* `lexes_sign`, `lexes_blank` — signs and blanks;
* `lexes_word` — identifiers;
* `lexes_number` — numbers, in decimal digits;
* `isIdentifier_binderName` — the names that the printer gives to bound
  variables.
-/
import Pinpoint.Proofs.Literals

namespace Pinpoint.Surface

variable {c : Char} {cs rest : List Char} {k : TokenKind} {ks : List TokenKind}

/-- Whether a word or a number ends before a text. -/
def endsWord : List Char → Bool
  | [] => true
  | c :: _ => c == ' ' || c == ')'

theorem lexes_blank (h : Lexes rest ks) : Lexes (' ' :: rest) ks := by
  have hsplit : (splitTrivia false (' ' :: rest)).2 = (splitTrivia false rest).2 := by
    rw [splitTrivia, if_pos (Bool.or_eq_true_iff.mpr (.inl (by decide)))]
    rfl
  cases h with
  | done hdone => exact .done (hsplit.trans hdone)
  | step hstep hscan hrest => exact .step (hsplit.trans hstep) hscan hrest

/-- A sign that is found at the beginning of a text. -/
theorem lexes_sign (hblank : Text.isBlank c = false) (hdash : c ≠ '-')
    (hsign : signs.find? (fun sign => sign.1.isPrefixOf (c :: (cs ++ rest))) = some (c :: cs, k))
    (h : Lexes rest ks) : Lexes (c :: (cs ++ rest)) (k :: ks) := by
  have hscan : scan c (cs ++ rest) = .ok ⟨k, c :: cs, rest⟩ := by
    rw [scan, hsign]
    simp
  exact .step (splitTrivia_eq_self hblank hdash) hscan h

/-! ### Words -/

/-- No sign begins like an identifier. -/
theorem find?_signs_of_isIdentStart (h : isIdentStart c) (rest : List Char) :
    signs.find? (fun sign => sign.1.isPrefixOf (c :: rest)) = none := by
  refine find?_signs_eq_none (fun sign hmem heq => ?_) rest
  have hnone : ∀ sign ∈ signs, sign.1.head?.all (fun d => !isIdentStart d) := by decide +kernel
  have := hnone sign hmem
  simp [heq, h] at this

/-- The rest of an identifier is taken up to where words end. -/
theorem splitIdent_append (h : (splitIdent cs).2 = []) (hrest : endsWord rest) :
    splitIdent (cs ++ rest) = (cs, rest) := by
  have hnil : splitIdent rest = ([], rest) := by
    cases rest with
    | nil => rfl
    | cons c cs =>
      simp only [endsWord, Bool.or_eq_true, beq_iff_eq] at hrest
      rcases hrest with rfl | rfl
      · exact if_neg (by simp; decide +kernel)
      · exact if_neg (by simp; decide +kernel)
  fun_induction splitIdent cs with
  | case1 => exact hnil
  | case2 c cs hc ident rest' heq ih =>
    rw [heq] at ih
    have hc' : isIdentRest c || (c == '.' && (cs ++ rest).head?.any isIdentStart) := by
      cases cs with
      | nil =>
        simp only [List.head?_nil, Option.any_none, Bool.and_false, Bool.or_false] at hc
        simp [hc]
      | cons => exact hc
    rw [List.cons_append, splitIdent, if_pos hc', ih h]
  | case3 => cases h

theorem lexes_letters (hstart : isIdentStart c) (hblank : Text.isBlank c = false)
    (hdigit : c.isDigit = false) (hsplit : (splitIdent cs).2 = []) (hrest : endsWord rest)
    (h : Lexes rest ks) :
    Lexes (c :: (cs ++ rest)) (wordKind (String.ofList (c :: cs)) :: ks) := by
  have hdash : c ≠ '-' := by
    rintro rfl
    revert hstart
    decide +kernel
  have hquote : c ≠ '"' := by
    rintro rfl
    revert hstart
    decide +kernel
  have hscan :=
    (Scans.word (find?_signs_of_isIdentStart hstart (cs ++ rest)) hdigit hquote hstart).scan
  rw [scanWord, splitIdent_append hsplit hrest] at hscan
  exact .step (splitTrivia_eq_self hblank hdash) hscan h

/-- An identifier consists of its own characters. -/
theorem exists_of_isIdentifier {s : String} (h : isIdentifier s) :
    ∃ c cs, s.toList = c :: cs ∧ isIdentStart c ∧ Text.isBlank c = false ∧ c.isDigit = false ∧
      (splitIdent cs).2 = [] ∧ wordKind s = .ident s := by
  rw [isIdentifier_iff] at h
  generalize hks : [TokenKind.ident s] = ks at h
  cases h with
  | done => cases hks
  | @step _ rest c l _ hsplit hscan _ =>
    have hkind := (List.cons.inj hks).1.symm
    obtain ⟨hstart, hdigit, rfl, hs⟩ := scan_eq_word hscan hkind
    replace hs : s.toList = c :: (splitIdent rest).1 := hs
    -- the text has no characters besides those of the word
    have htrivia := congrArg List.length (append_splitTrivia false s.toList)
    have hident := congrArg List.length (append_splitIdent rest)
    have hlen := congrArg List.length hs
    rw [hsplit] at htrivia
    simp only [List.length_append, List.length_cons] at htrivia hident hlen
    have hnil : (splitIdent rest).2 = [] := List.eq_nil_of_length_eq_zero (by omega)
    have hrest : (splitIdent rest).1 = rest := by
      have := append_splitIdent rest
      rwa [hnil, List.append_nil] at this
    have hblank := not_trivia_of_splitTrivia hsplit
    refine ⟨c, rest, hrest ▸ hs, hstart, by simp at hblank; simp [hblank], hdigit, hnil, ?_⟩
    rwa [scanWord, ← hs, String.ofList_toList] at hkind

theorem lexes_word {s : String} (hs : isIdentifier s) (hrest : endsWord rest)
    (h : Lexes rest ks) : Lexes (s.toList ++ rest) (.ident s :: ks) := by
  obtain ⟨c, cs, heq, hstart, hblank, hdigit, hsplit, hkind⟩ := exists_of_isIdentifier hs
  have := lexes_letters hstart hblank hdigit hsplit hrest h
  rwa [← heq, String.ofList_toList, hkind, ← List.cons_append, ← heq] at this

/-! ### Numbers -/

theorem digits?_toDigits {bound n : Nat} (h : n < bound) :
    Text.Numeral.digits? bound (Nat.toDigits 10 n) = some n := by
  have hvalue : Text.Numeral.value (Nat.toDigits 10 n) = n := Nat.ofDigitChars_ten_toDigits
  refine Text.Numeral.digits?_eq_some_iff.mpr ⟨Nat.toDigits_ne_nil, fun c hc => ?_, ?_, hvalue.symm⟩
  · exact Nat.isDigit_of_mem_toDigits (b := 10) (by decide) (by decide) hc
  · rwa [hvalue]

/-- No sign begins like a number. -/
theorem find?_signs_of_isDigit (h : c.isDigit) (rest : List Char) :
    signs.find? (fun sign => sign.1.isPrefixOf (c :: rest)) = none := by
  refine find?_signs_eq_none (fun sign hmem heq => ?_) rest
  have hnone : ∀ sign ∈ signs, sign.1.head?.all (fun d => !d.isDigit) := by decide
  have := hnone sign hmem
  simp [heq, h] at this

theorem isBlank_of_isDigit (h : c.isDigit) : Text.isBlank c = false := by
  have hrange : 48 ≤ c.toNat ∧ c.toNat ≤ 57 := by
    simp only [Char.isDigit, Bool.and_eq_true, decide_eq_true_eq, ge_iff_le,
      UInt32.le_iff_toNat_le] at h
    exact h
  cases hblank : Text.isBlank c with
  | false => rfl
  | true =>
    obtain ⟨r, hr, hlo, hhi⟩ := Text.exists_range_of_memRanges hblank
    have hapart : ∀ r ∈ Text.blankRanges, r.2 < 48 ∨ 57 < r.1 := by decide
    have := hapart r hr
    omega

theorem takeWhile_isDigit_append {digits : List Char} (hdigits : ∀ c ∈ digits, c.isDigit)
    (hrest : endsWord rest) :
    (digits ++ rest).takeWhile Char.isDigit = digits ∧
      (digits ++ rest).dropWhile Char.isDigit = rest := by
  rw [List.takeWhile_append_of_pos hdigits, List.dropWhile_append_of_pos hdigits]
  cases rest with
  | nil => simp
  | cons c cs =>
    simp only [endsWord, Bool.or_eq_true, beq_iff_eq] at hrest
    rcases hrest with rfl | rfl <;> simp

theorem lexes_number (n : UInt64) (hrest : endsWord rest) (h : Lexes rest ks) :
    Lexes ((toString n.toNat).toList ++ rest) (.nat n :: ks) := by
  rw [Nat.toString_eq_ofList_toDigits, String.toList_ofList]
  have hdigits : ∀ c ∈ Nat.toDigits 10 n.toNat, c.isDigit := fun c hc =>
    Nat.isDigit_of_mem_toDigits (by decide) (by decide) hc
  obtain ⟨htake, hdrop⟩ := takeWhile_isDigit_append hdigits hrest
  have hvalue := digits?_toDigits n.toNat_lt
  obtain ⟨c, cs, heq⟩ := List.exists_cons_of_ne_nil (Nat.toDigits_ne_nil (b := 10) (n := n.toNat))
  have hc : c.isDigit := hdigits c (heq ▸ List.mem_cons_self)
  rw [heq, List.cons_append] at htake hdrop
  have hscan : scan c (cs ++ rest) = .ok ⟨.nat n, c :: cs, rest⟩ := by
    rw [scan, find?_signs_of_isDigit hc]
    simp only [if_pos hc]
    rw [scanNumber, htake, hdrop, ← heq, hvalue]
    simp
  have hdash : c ≠ '-' := by
    rintro rfl
    cases hc
  rw [heq]
  exact .step (splitTrivia_eq_self (isBlank_of_isDigit hc) hdash) hscan h

/-! ### Names of bound variables -/

theorem splitIdent_eq_self (h : ∀ c ∈ cs, isIdentRest c) : splitIdent cs = (cs, []) := by
  induction cs with
  | nil => rfl
  | cons c cs ih =>
    have hc := h c List.mem_cons_self
    rw [splitIdent, if_pos (by simp [hc]), ih fun c hc => h c (List.mem_cons_of_mem _ hc)]

theorem binderName_eq (depth : Nat) :
    ∃ cs, Expr.binderName depth = String.ofList ('x' :: cs) ∧ ∀ c ∈ cs, isIdentRest c := by
  unfold Expr.binderName
  split
  · exact ⟨[], rfl, by simp⟩
  · refine ⟨'_' :: Nat.toDigits 10 depth, ?_, ?_⟩
    · rw [Nat.toString_eq_ofList_toDigits]
      exact String.toList_inj.mp (by simp)
    · intro c hc
      rcases List.mem_cons.mp hc with rfl | hc
      · rfl
      · have := Nat.isDigit_of_mem_toDigits (b := 10) (by decide) (by decide) hc
        simp [isIdentRest, this]

theorem binderName_ne {s : String} (h : s.toList.head? ≠ some 'x') (depth : Nat) :
    Expr.binderName depth ≠ s := by
  rintro rfl
  obtain ⟨cs, heq, -⟩ := binderName_eq depth
  simp [heq] at h

/-- The printer names bound variables by identifiers. -/
theorem isIdentifier_binderName (depth : Nat) : isIdentifier (Expr.binderName depth) := by
  obtain ⟨cs, heq, hcs⟩ := binderName_eq depth
  have hlexes : Lexes ('x' :: (cs ++ [])) _ :=
    lexes_letters (by decide) (by decide) (by decide) (by rw [splitIdent_eq_self hcs]) rfl
      (.done rfl)
  have hkind : wordKind (Expr.binderName depth) = .ident (Expr.binderName depth) := by
    rw [wordKind, if_neg (binderName_ne (by decide) depth),
      if_neg (binderName_ne (by decide) depth), if_neg (binderName_ne (by decide) depth)]
  rw [isIdentifier_iff]
  rw [← heq, hkind, List.append_nil] at hlexes
  simpa [heq] using hlexes

/-! ### Texts that tokens can follow -/

/-- Whether a text has the given tokens, wherever it stands before the end of a
word. -/
def Spells (s : String) (ts : List TokenKind) : Prop :=
  ∀ (rest : List Char) (ks : List TokenKind), endsWord rest → Lexes rest ks →
    Lexes (s.toList ++ rest) (ts ++ ks)

variable {s s' : String} {ts ts' : List TokenKind}

theorem spells_word (h : isIdentifier s) : Spells s [.ident s] := fun _ _ => lexes_word h

theorem spells_number (n : UInt64) : Spells (toString n.toNat) [.nat n] :=
  fun _ _ => lexes_number n

theorem spells_text (h : ∀ c ∈ s.toList, isReadBack c) : Spells (Text.quote s) [.str s] :=
  fun _ _ _ => lexes_text h

/-- Parentheses, where they are needed. -/
theorem Spells.parenthesize (h : Spells s ts) (needed : Bool) :
    Spells (parenthesize needed s) (if needed then .lparen :: (ts ++ [.rparen]) else ts) := by
  cases needed with
  | false => exact h
  | true =>
    intro rest ks _ hks
    have hclose : Lexes (')' :: ([] ++ rest)) (.rparen :: ks) :=
      lexes_sign (by decide) (by decide) rfl hks
    have hopen : Lexes ('(' :: ([] ++ (s.toList ++ ')' :: rest))) _ :=
      lexes_sign (by decide) (by decide) rfl (h (')' :: rest) _ rfl hclose)
    simpa [Pinpoint.parenthesize] using hopen

theorem Spells.app (h : Spells s ts) (h' : Spells s' ts') :
    Spells (s ++ " " ++ s') (ts ++ ts') := by
  intro rest ks hrest hks
  simpa using h (' ' :: (s'.toList ++ rest)) _ rfl (lexes_blank (h' rest ks hrest hks))

/-- An operator between blanks. -/
theorem Spells.operation (op : Operator) (h : Spells s ts) (h' : Spells s' ts') :
    Spells (s ++ " " ++ op.sign ++ " " ++ s') (ts ++ op.token :: ts') := by
  intro rest ks hrest hks
  have hright := lexes_blank (h' rest ks hrest hks)
  have hsign : Lexes (op.sign.toList ++ ' ' :: (s'.toList ++ rest)) (op.token :: (ts' ++ ks)) := by
    cases op <;> exact lexes_sign (by decide) (by decide) rfl hright
  simpa using h (' ' :: (op.sign.toList ++ ' ' :: (s'.toList ++ rest))) _ rfl
    (lexes_blank hsign)

theorem Spells.arrow (h : Spells s ts) (h' : Spells s' ts') :
    Spells (s ++ " → " ++ s') (ts ++ .arrow :: ts') := by
  intro rest ks hrest hks
  have hsign : Lexes ('→' :: ([] ++ ' ' :: (s'.toList ++ rest))) (.arrow :: (ts' ++ ks)) :=
    lexes_sign (by decide) (by decide) rfl (lexes_blank (h' rest ks hrest hks))
  simpa using h (' ' :: '→' :: ' ' :: (s'.toList ++ rest)) _ rfl (lexes_blank hsign)

/-- A binder in parentheses, before what follows it. -/
theorem Spells.group {x : String} (hx : isIdentifier x) (h : Spells s ts) {rest : List Char}
    {ks : List TokenKind} (hks : Lexes rest ks) :
    Lexes ('(' :: (x.toList ++ ' ' :: ':' :: ' ' :: (s.toList ++ ')' :: rest)))
      (.lparen :: .ident x :: .colon :: (ts ++ .rparen :: ks)) := by
  have hclose : Lexes (')' :: ([] ++ rest)) (.rparen :: ks) :=
    lexes_sign (by decide) (by decide) rfl hks
  have htype := lexes_blank (h (')' :: rest) _ rfl hclose)
  have hcolon : Lexes (':' :: ([] ++ ' ' :: (s.toList ++ ')' :: rest))) _ :=
    lexes_sign (by decide) (by decide) rfl htype
  have hname := spells_word hx (' ' :: ':' :: ' ' :: (s.toList ++ ')' :: rest)) _ rfl
    (lexes_blank hcolon)
  have hopen : Lexes ('(' :: ([] ++ _)) _ := lexes_sign (by decide) (by decide) rfl hname
  exact hopen

theorem Spells.pi {x : String} (hx : isIdentifier x) (h : Spells s ts) (h' : Spells s' ts') :
    Spells ("∀ (" ++ x ++ " : " ++ s ++ "), " ++ s')
      (.all :: .lparen :: .ident x :: .colon :: (ts ++ .rparen :: .comma :: ts')) := by
  intro rest ks hrest hks
  have hcomma : Lexes (',' :: ([] ++ ' ' :: (s'.toList ++ rest))) (.comma :: (ts' ++ ks)) :=
    lexes_sign (by decide) (by decide) rfl (lexes_blank (h' rest ks hrest hks))
  have hall : Lexes ('∀' :: ([] ++ _)) _ :=
    lexes_sign (by decide) (by decide) rfl (lexes_blank (h.group hx hcomma))
  simpa using hall

theorem Spells.lam {x : String} (hx : isIdentifier x) (h : Spells s ts) (h' : Spells s' ts') :
    Spells ("fun (" ++ x ++ " : " ++ s ++ ") => " ++ s')
      (.lam :: .lparen :: .ident x :: .colon :: (ts ++ .rparen :: .fatArrow :: ts')) := by
  intro rest ks hrest hks
  have hsign : Lexes ('=' :: (['>'] ++ ' ' :: (s'.toList ++ rest))) (.fatArrow :: (ts' ++ ks)) :=
    lexes_sign (by decide) (by decide) rfl (lexes_blank (h' rest ks hrest hks))
  have hfun : Lexes ('f' :: (['u', 'n'] ++ ' ' :: _)) (.lam :: _) :=
    lexes_letters (by decide) (by decide) (by decide) (by decide) rfl
      (lexes_blank (h.group hx (lexes_blank hsign)))
  simpa using hfun

end Pinpoint.Surface
