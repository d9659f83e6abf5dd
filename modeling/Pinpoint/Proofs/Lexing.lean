/-
What texts are lexed as.

`Lexes cs ks` says that the tokens of the characters `cs` have the kinds `ks`,
the end of the text apart.  Where a token stands in the text plays no part in
it; `Cuts` is the same with the tokens in their places.

* `tokenize_eq_ok_iff` — `tokenize` finds just these kinds, and the end;
* `scans_of_scan`, `Scans.scan` — the ways in which a token begins;
* `cuts_self` — a token is the same token by itself;
* `Lexes.isIdentifier` — each identifier among them is one by itself;
* `Lexes.noEnd` — the end of the text is not among them.
-/
import Mathlib.Data.List.TakeWhile
import Pinpoint.Proofs.Grammar

namespace Pinpoint.Surface

/-- Whether the tokens of some characters have the given kinds, the end of the
text apart. -/
inductive Lexes : List Char → List TokenKind → Prop
  | done {cs : List Char} : (splitTrivia false cs).2 = [] → Lexes cs []
  | step {cs rest : List Char} {c : Char} {l : Lexeme} {ks : List TokenKind} :
      (splitTrivia false cs).2 = c :: rest → scan c rest = .ok l → Lexes l.rest ks →
        Lexes cs (l.kind :: ks)

variable {cs rest : List Char} {c : Char} {l : Lexeme} {ks : List TokenKind} {start : Nat}

theorem tokenizeFrom_nil (start : Nat) (h : (splitTrivia false cs).2 = []) :
    tokenizeFrom start cs = .ok [⟨.eof, ⟨start + utf8Length (splitTrivia false cs).1,
      start + utf8Length (splitTrivia false cs).1⟩⟩] := by
  rw [tokenizeFrom]
  split
  rename_i trivia rest hsplit
  rw [hsplit] at h
  subst h
  simp only [hsplit]

theorem tokenizeFrom_cons {pos : Nat} (h : (splitTrivia false cs).2 = c :: rest)
    (hpos : pos = start + utf8Length (splitTrivia false cs).1) :
    tokenizeFrom start cs = match scan c rest with
      | .error e => .error (e.at pos)
      | .ok l => (tokenizeFrom (pos + utf8Length l.text) l.rest).map
          (⟨l.kind, ⟨pos, pos + utf8Length l.text⟩⟩ :: ·) := by
  subst hpos
  rw [tokenizeFrom]
  split
  rename_i trivia rest' hsplit
  rw [hsplit] at h
  subst h
  simp only [hsplit]
  split
  · rename_i hscan
    rw [hscan]
  · rename_i hscan
    rw [hscan]
    rfl

/-- Whether a text that begins at a position is cut into the given tokens. -/
inductive Cuts : Nat → List Char → List Token → Prop
  | done {start stop : Nat} {cs : List Char} : (splitTrivia false cs).2 = [] →
      stop = start + utf8Length (splitTrivia false cs).1 → Cuts start cs [⟨.eof, ⟨stop, stop⟩⟩]
  | step {start pos : Nat} {cs rest : List Char} {c : Char} {l : Lexeme} {ts : List Token} :
      (splitTrivia false cs).2 = c :: rest →
      pos = start + utf8Length (splitTrivia false cs).1 → scan c rest = .ok l →
      Cuts (pos + utf8Length l.text) l.rest ts →
        Cuts start cs (⟨l.kind, ⟨pos, pos + utf8Length l.text⟩⟩ :: ts)

theorem cuts_of_tokenizeFrom {start : Nat} {cs : List Char} {ts : List Token}
    (h : tokenizeFrom start cs = .ok ts) : Cuts start cs ts := by
  cases hsplit : (splitTrivia false cs).2 with
  | nil =>
    cases (tokenizeFrom_nil start hsplit).symm.trans h
    exact .done hsplit rfl
  | cons c rest =>
    rw [tokenizeFrom_cons hsplit rfl] at h
    cases hscan : scan c rest with
    | error e =>
      rw [hscan] at h
      cases h
    | ok l =>
      have hlt := length_rest_lt_of_scan hscan
      have hle := congrArg List.length (append_splitTrivia false cs)
      rw [hscan] at h
      cases hrest : tokenizeFrom
          (start + utf8Length (splitTrivia false cs).1 + utf8Length l.text) l.rest with
      | error e =>
        simp only [hrest] at h
        cases h
      | ok ts' =>
        simp only [hrest] at h
        cases h
        exact .step hsplit rfl hscan (cuts_of_tokenizeFrom hrest)
termination_by cs.length
decreasing_by
  simp only [hsplit, List.length_append, List.length_cons] at hle
  omega

theorem Cuts.tokenizeFrom {ts : List Token} (h : Cuts start cs ts) :
    tokenizeFrom start cs = .ok ts := by
  induction h with
  | done hsplit hstop => rw [tokenizeFrom_nil _ hsplit, ← hstop]
  | step hsplit hpos hscan _ ih =>
    rw [tokenizeFrom_cons hsplit hpos, hscan]
    simp only [ih]
    rfl

theorem Cuts.lexes {ts : List Token} (h : Cuts start cs ts) :
    ∃ ks, Lexes cs ks ∧ kinds ts = ks ++ [.eof] := by
  induction h with
  | done hsplit _ => exact ⟨[], .done hsplit, rfl⟩
  | @step _ _ _ _ _ l _ hsplit _ hscan _ ih =>
    obtain ⟨ks, hks, heq⟩ := ih
    exact ⟨l.kind :: ks, .step hsplit hscan hks, congrArg (l.kind :: ·) heq⟩

theorem lexes_of_tokenizeFrom {ts : List Token} (h : tokenizeFrom start cs = .ok ts) :
    ∃ ks, Lexes cs ks ∧ kinds ts = ks ++ [.eof] :=
  (cuts_of_tokenizeFrom h).lexes

theorem Lexes.tokenizeFrom (h : Lexes cs ks) (start : Nat) :
    ∃ ts, tokenizeFrom start cs = .ok ts ∧ kinds ts = ks ++ [.eof] := by
  induction h generalizing start with
  | done hsplit => exact ⟨_, tokenizeFrom_nil start hsplit, rfl⟩
  | @step cs rest c l ks hsplit hscan _ ih =>
    obtain ⟨ts, hts, hkinds⟩ :=
      ih (start + utf8Length (splitTrivia false cs).1 + utf8Length l.text)
    exact ⟨_, (Cuts.step hsplit rfl hscan (cuts_of_tokenizeFrom hts)).tokenizeFrom,
      congrArg (l.kind :: ·) hkinds⟩

theorem tokenize_eq_ok_iff {text : String} :
    (∃ ts, tokenize text = .ok ts ∧ kinds ts = ks ++ [.eof]) ↔ Lexes text.toList ks := by
  constructor
  · rintro ⟨ts, hts, heq⟩
    obtain ⟨ks', hks, heq'⟩ := lexes_of_tokenizeFrom hts
    exact List.append_cancel_right (heq'.symm.trans heq) ▸ hks
  · exact fun h => h.tokenizeFrom 0

theorem isIdentifier_iff {s : String} : isIdentifier s ↔ Lexes s.toList [.ident s] := by
  rw [← tokenize_eq_ok_iff]
  unfold isIdentifier
  cases tokenize s with
  | error e => simp
  | ok ts => simp

/-! ### How tokens begin -/

theorem splitTrivia_eq_self (hblank : Text.isBlank c = false) (hdash : c ≠ '-') :
    (splitTrivia false (c :: rest)).2 = c :: rest := by
  rw [splitTrivia, if_neg (by simp [hblank, hdash])]

theorem find?_signs_eq_none (h : ∀ sign ∈ signs, sign.1.head? ≠ some c) (rest : List Char) :
    signs.find? (fun sign => sign.1.isPrefixOf (c :: rest)) = none := by
  rw [List.find?_eq_none]
  intro sign hmem hprefix
  have hne : sign.1 ≠ [] := by
    revert hmem
    exact (by decide : ∀ sign ∈ signs, sign.1 ≠ []) sign
  obtain ⟨d, ds, heq⟩ := List.exists_cons_of_ne_nil hne
  simp only [heq, List.isPrefixOf, Bool.and_eq_true, beq_iff_eq] at hprefix
  exact h sign hmem (by rw [heq, List.head?_cons, hprefix.1])

theorem isPrefixOf_append {sign text : List Char} (h : sign.isPrefixOf text) (rest : List Char) :
    sign.isPrefixOf (text ++ rest) := by
  rw [List.isPrefixOf_iff_prefix] at h ⊢
  exact h.trans (List.prefix_append text rest)

/-- No sign is found in a part of a text that begins with none. -/
theorem find?_signs_of_append {text : List Char}
    (h : signs.find? (fun sign => sign.1.isPrefixOf (text ++ rest)) = none) :
    signs.find? (fun sign => sign.1.isPrefixOf text) = none := by
  rw [List.find?_eq_none] at h ⊢
  exact fun sign hmem hprefix => h sign hmem (isPrefixOf_append hprefix rest)

/-- The sign that is found at the beginning of a text is found in itself: one
that is tried before it would have been found in the text. -/
theorem find?_signs_self {text : List Char} {kind : TokenKind}
    (h : signs.find? (fun sign => sign.1.isPrefixOf (text ++ rest)) = some (text, kind)) :
    signs.find? (fun sign => sign.1.isPrefixOf text) = some (text, kind) := by
  rw [List.find?_eq_some_iff_append] at h ⊢
  obtain ⟨-, before, after, hsigns, hbefore⟩ := h
  refine ⟨by simp, before, after, hsigns, fun sign hmem => ?_⟩
  have hnot := hbefore sign hmem
  rw [Bool.not_eq_true'] at hnot ⊢
  exact Bool.eq_false_iff.mpr fun hprefix =>
    Bool.eq_false_iff.mp hnot (isPrefixOf_append hprefix rest)

/-- The ways in which a token can be taken off a text that begins with `c`. -/
inductive Scans (c : Char) (cs : List Char) : Lexeme → Prop
  | sign {text : List Char} {kind : TokenKind} :
      signs.find? (fun sign => sign.1.isPrefixOf (c :: cs)) = some (text, kind) →
        Scans c cs ⟨kind, text, (c :: cs).drop text.length⟩
  | number {n : Nat} : signs.find? (fun sign => sign.1.isPrefixOf (c :: cs)) = none →
      c.isDigit → Text.Numeral.digits? UInt64.size ((c :: cs).takeWhile Char.isDigit) = some n →
        Scans c cs ⟨.nat (UInt64.ofNat n), (c :: cs).takeWhile Char.isDigit,
          (c :: cs).dropWhile Char.isDigit⟩
  | text {value text rest : List Char} : c = '"' → splitString cs = some (value, text, rest) →
      Scans c cs ⟨.str (String.ofList value), '"' :: text, rest⟩
  | word : signs.find? (fun sign => sign.1.isPrefixOf (c :: cs)) = none → c.isDigit = false →
      c ≠ '"' → isIdentStart c → Scans c cs (scanWord c cs)

theorem scans_of_scan (h : scan c rest = .ok l) : Scans c rest l := by
  unfold scan at h
  split at h
  · rename_i hsign
    cases h
    exact .sign hsign
  · rename_i hsign
    split at h
    · rename_i hdigit
      unfold scanNumber at h
      split at h
      · rename_i hvalue
        cases h
        exact .number hsign hdigit hvalue
      · cases h
    · rename_i hdigit
      split at h
      · rename_i hquote
        unfold scanString at h
        split at h
        · rename_i hvalue
          cases h
          exact .text hquote hvalue
        · cases h
      · rename_i hquote
        split at h
        · rename_i hstart
          cases h
          exact .word hsign (by simpa using hdigit) hquote hstart
        · cases h

theorem Scans.scan (h : Scans c rest l) : scan c rest = .ok l := by
  cases h with
  | sign hsign => rw [Surface.scan, hsign]
  | number hsign hdigit hvalue =>
    rw [Surface.scan, hsign]
    simp only [if_pos hdigit]
    rw [scanNumber, hvalue]
  | text hquote hvalue =>
    subst hquote
    rw [Surface.scan, find?_signs_eq_none (by decide)]
    simp [scanString, hvalue]
  | word hsign hdigit hquote hstart =>
    rw [Surface.scan, hsign]
    simp [hdigit, hquote, hstart]

/-! ### The end of the text -/

theorem kind_ne_eof_of_scan (h : scan c rest = .ok l) : l.kind ≠ .eof := by
  cases scans_of_scan h with
  | @sign text kind hsign =>
    have hne : ∀ sign ∈ signs, sign.2 ≠ .eof := by decide
    exact hne (text, kind) (List.mem_of_find?_eq_some hsign)
  | number => simp
  | text => simp
  | word =>
    simp only [scanWord, wordKind]
    repeat' split
    all_goals simp

theorem Lexes.noEnd (h : Lexes cs ks) : .eof ∉ ks := by
  induction h with
  | done => simp
  | step _ hscan _ ih => simp [(kind_ne_eof_of_scan hscan).symm, ih]

/-! ### Tokens by themselves -/

/-- What has been taken of an identifier is all of it. -/
theorem splitIdent_fst (cs : List Char) :
    splitIdent (splitIdent cs).1 = ((splitIdent cs).1, []) := by
  fun_induction splitIdent cs with
  | case1 => rfl
  | case2 c cs hc ident rest heq ih =>
    rw [heq] at ih
    have hc' : isIdentRest c || (c == '.' && ident.head?.any isIdentStart) := by
      cases cs with
      | nil =>
        cases heq
        exact hc
      | cons next cs =>
        by_cases hnext : isIdentStart next
        · rw [splitIdent, if_pos (by simp [isIdentRest, hnext])] at heq
          cases heq
          simpa [hnext] using hc
        · simp only [List.head?_cons, Option.any_some, hnext, Bool.and_false, Bool.or_false] at hc
          simp [hc]
    rw [splitIdent, if_pos hc', ih]
  | case3 => rfl

/-- The text of a literal is a literal by itself. -/
theorem splitString_self {value text : List Char}
    (h : splitString cs = some (value, text, rest)) :
    splitString text = some (value, text, []) := by
  fun_induction splitString cs generalizing value text rest with
  | case1 => cases h
  | case2 => cases h
  | case3 cs =>
    cases h
    rfl
  | case4 c cs ih =>
    obtain ⟨⟨v, t, r⟩, hs, heq⟩ := Option.map_eq_some_iff.mp h
    cases heq
    rw [splitString, ih hs]
    rfl
  | case5 c cs hend hquote hescape ih =>
    obtain ⟨⟨v, t, r⟩, hs, heq⟩ := Option.map_eq_some_iff.mp h
    cases heq
    have hbackslash : c ≠ '\\' := by
      rintro rfl
      cases cs with
      | nil => exact hend rfl rfl
      | cons d ds => exact hescape d ds rfl rfl
    rw [splitString, ih hs]
    · rfl
    · exact fun h _ => hbackslash h
    · exact hquote
    · exact fun _ _ h _ => hbackslash h

theorem exists_of_scan (h : scan c rest = .ok l) :
    ∃ tail, l.text = c :: tail ∧ rest = tail ++ l.rest := by
  have happ := text_append_rest_of_scan h
  obtain ⟨d, tail, htext⟩ := List.exists_cons_of_ne_nil (text_ne_nil_of_scan h)
  rw [htext, List.cons_append] at happ
  obtain ⟨rfl, hrest⟩ := List.cons.inj happ
  exact ⟨tail, htext, hrest.symm⟩

/-- What a scan takes is one token by itself. -/
theorem scan_self {kind : TokenKind} {tail after : List Char}
    (h : scan c (tail ++ after) = .ok ⟨kind, c :: tail, after⟩) :
    scan c tail = .ok ⟨kind, c :: tail, []⟩ := by
  generalize hl : (⟨kind, c :: tail, after⟩ : Lexeme) = l at h
  cases scans_of_scan h with
  | sign hsign =>
    obtain ⟨rfl, rfl, -⟩ := Lexeme.mk.inj hl
    rw [← List.cons_append] at hsign
    simpa using (Scans.sign (find?_signs_self hsign)).scan
  | number hsign hdigit hvalue =>
    obtain ⟨rfl, htext, -⟩ := Lexeme.mk.inj hl
    rw [← List.cons_append] at hsign
    have hdigits : ∀ d ∈ c :: tail, d.isDigit := by
      rw [htext]
      exact fun d hd => List.mem_takeWhile_imp hd
    -- The digits are all of the text, so that a scan of it takes them all again.
    have htake : (c :: tail).takeWhile Char.isDigit = c :: tail :=
      List.takeWhile_eq_self_iff.mpr hdigits
    rw [← htext, ← htake] at hvalue
    have hself := (Scans.number (find?_signs_of_append hsign) hdigit hvalue).scan
    rwa [htake, List.dropWhile_eq_nil_iff.mpr hdigits] at hself
  | text hquote hvalue =>
    obtain ⟨rfl, htext, -⟩ := Lexeme.mk.inj hl
    obtain ⟨-, rfl⟩ := List.cons.inj htext
    simpa [hquote] using (Scans.text hquote (splitString_self hvalue)).scan
  | word hsign hdigit hquote hstart =>
    obtain ⟨rfl, htext, -⟩ := Lexeme.mk.inj hl
    obtain ⟨-, htail⟩ := List.cons.inj htext
    rw [← List.cons_append] at hsign
    -- The same holds of the characters that an identifier goes on with.
    have hall := splitIdent_fst (tail ++ after)
    rw [← htail] at hall
    have hself := (Scans.word (find?_signs_of_append hsign) hdigit hquote hstart).scan
    rw [scanWord, hall] at hself
    rwa [← htail]

/-- What is left after blanks and comments begins with neither. -/
theorem not_trivia_of_splitTrivia {comment : Bool} (h : (splitTrivia comment cs).2 = c :: rest) :
    ¬(Text.isBlank c || (c == '-' && rest.head? == some '-')) := by
  fun_induction splitTrivia comment cs with
  | case1 => cases h
  | case2 c cs trivia rest heq ih =>
    rw [heq] at ih
    exact ih h
  | case3 c cs hc trivia rest heq ih =>
    rw [heq] at ih
    exact ih h
  | case4 c cs hc =>
    cases h
    exact hc

/-- Neither does a part of it. -/
theorem splitTrivia_of_append {comment : Bool} {tail after : List Char}
    (h : (splitTrivia comment cs).2 = c :: (tail ++ after)) :
    splitTrivia false (c :: tail) = ([], c :: tail) := by
  have hnot := not_trivia_of_splitTrivia h
  rw [splitTrivia, if_neg]
  cases tail with
  | nil =>
    simp only [Bool.or_eq_true, not_or] at hnot
    simp [hnot.1]
  | cons d tail => exact hnot

/-- The text of a token is cut into this token. -/
theorem cuts_self (hsplit : (splitTrivia false cs).2 = c :: rest) (h : scan c rest = .ok l) :
    Cuts 0 l.text [⟨l.kind, ⟨0, utf8Length l.text⟩⟩,
      ⟨.eof, ⟨utf8Length l.text, utf8Length l.text⟩⟩] := by
  obtain ⟨tail, htext, rfl⟩ := exists_of_scan h
  obtain ⟨kind, text, after⟩ := l
  subst htext
  have htrivia := splitTrivia_of_append hsplit
  have hdone : Cuts (0 + utf8Length (c :: tail)) [] [⟨.eof, ⟨utf8Length (c :: tail), _⟩⟩] :=
    .done rfl (Nat.zero_add _).symm
  simpa using Cuts.step (congrArg Prod.snd htrivia) (by rw [htrivia]; rfl) (scan_self h) hdone

/-! ### Identifiers -/

theorem wordKind_eq_ident {word s : String} (h : wordKind word = .ident s) : word = s := by
  unfold wordKind at h
  split at h
  · cases h
  · split at h
    · cases h
    · split at h <;> cases h
      rfl

/-- An identifier is scanned as a word. -/
theorem scan_eq_word {s : String} (h : scan c rest = .ok l) (hl : l.kind = .ident s) :
    isIdentStart c ∧ c.isDigit = false ∧ l = scanWord c rest ∧ s.toList = l.text := by
  cases scans_of_scan h with
  | @sign text kind hsign =>
    have hne : ∀ sign ∈ signs, ∀ s, sign.2 ≠ .ident s := by simp [signs]
    exact absurd hl (hne (text, kind) (List.mem_of_find?_eq_some hsign) s)
  | number => cases hl
  | text => cases hl
  | word hsign hdigit hquote hstart =>
    have hs := congrArg String.toList (wordKind_eq_ident hl)
    rw [String.toList_ofList] at hs
    exact ⟨hstart, hdigit, rfl, hs.symm⟩

theorem isIdentifier_of_scan {s : String} (hsplit : (splitTrivia false cs).2 = c :: rest)
    (h : scan c rest = .ok l) (hl : l.kind = .ident s) : isIdentifier s := by
  obtain ⟨-, -, -, hs⟩ := scan_eq_word h hl
  obtain ⟨ks, hks, heq⟩ := (cuts_self hsplit h).lexes
  have hkinds : [l.kind] = ks := List.append_cancel_right heq
  rwa [isIdentifier_iff, hs, ← hl, hkinds]

theorem Lexes.isIdentifier (h : Lexes cs ks) {s : String} (hs : .ident s ∈ ks) :
    isIdentifier s := by
  induction h with
  | done => cases hs
  | step hsplit hscan _ ih =>
    rcases List.mem_cons.mp hs with heq | hs
    · exact isIdentifier_of_scan hsplit hscan heq.symm
    · exact ih hs

end Pinpoint.Surface
