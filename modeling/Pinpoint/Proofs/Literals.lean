/-
How printed text literals are read.

The printer escapes more characters than the grammar knows escapes for.  The
scanner drops a backslash and takes the character after it, but for `n`, which
stands for the line feed: of the other escapes it takes the letters
(`readBack`).

* `lexes_quote` — a printed text is one literal, and what is read as its value;
* `flatMap_readBack_eq_iff` — the value is the text that was printed if each
  character of it is read back;
* `tokenize_pretty_text` — the tokens of a printed literal.
-/
import Pinpoint.Proofs.Lexing

namespace Pinpoint.Surface

variable {c : Char} {cs rest : List Char} {ks : List TokenKind}

/-- What is read where a character of a text literal was printed. -/
def readBack (c : Char) : List Char :=
  match c with
  | '\x00' => ['0']
  | '\t' => ['t']
  | '\r' => ['r']
  | '\n' => ['\n']
  | '\\' => ['\\']
  | '"' => ['"']
  | c =>
    if Text.isUnprintable c then 'u' :: '{' :: (Nat.toDigits 16 c.toNat ++ ['}']) else [c]

/-- Whether a character in a text literal is read as it was written.  Of the
characters with an escape these are the line feed, the backslash and the quote. -/
def isReadBack (c : Char) : Bool :=
  c = '\n' || c = '\\' || c = '"' || Text.quoteChar c = [c]

/-! ### One character -/

/-- A character that neither ends a literal nor begins an escape. -/
def isPlain (c : Char) : Bool := c != '"' && c != '\\'

theorem isPlain_digitChar {n : Nat} (h : n < 16) : isPlain n.digitChar := by
  revert n
  decide

theorem isPlain_of_mem_toDigits {n : Nat} (hc : c ∈ Nat.toDigits 16 n) : isPlain c := by
  induction n using Nat.strongRecOn with
  | ind n ih =>
    rw [Nat.toDigits_eq_if (by decide)] at hc
    split at hc
    · rename_i hn
      rw [List.mem_singleton.mp hc]
      exact isPlain_digitChar hn
    · rename_i hn
      rcases List.mem_append.mp hc with hc | hc
      · exact ih (n / 16) (by omega) hc
      · rw [List.mem_singleton.mp hc]
        exact isPlain_digitChar (Nat.mod_lt n (by decide))

theorem splitString_plain {text : List Char} (h : ∀ c ∈ text, isPlain c) (cs : List Char) :
    splitString (text ++ cs) =
      (splitString cs).map fun (value, text', rest) => (text ++ value, text ++ text', rest) := by
  induction text with
  | nil => simp
  | cons c text ih =>
    obtain ⟨hc, htext⟩ := List.forall_mem_cons.mp h
    simp only [isPlain, Bool.and_eq_true, bne_iff_ne] at hc
    rw [List.cons_append, splitString, ih htext]
    · cases splitString cs <;> rfl
    · exact fun h _ => hc.2 h
    · exact hc.1
    · exact fun _ _ h _ => hc.2 h

/-- After the backslash of an escape one character is read for itself, and what
follows as any other text. -/
theorem splitString_codePointEscape (c : Char) (cs : List Char) :
    splitString (Text.codePointEscape c ++ cs) =
      (splitString cs).map fun (value, text, rest) =>
        ('u' :: '{' :: (Nat.toDigits 16 c.toNat ++ ['}']) ++ value,
          Text.codePointEscape c ++ text, rest) := by
  have hplain : ∀ d ∈ '{' :: (Nat.toDigits 16 c.toNat ++ ['}']), isPlain d := by
    intro d hd
    simp only [List.mem_cons, List.mem_append, List.not_mem_nil, or_false] at hd
    rcases hd with rfl | hd | rfl
    · rfl
    · exact isPlain_of_mem_toDigits hd
    · rfl
  rw [Text.codePointEscape, List.cons_append, List.cons_append, splitString,
    splitString_plain hplain]
  cases splitString cs <;> simp [unescape]

theorem splitString_quoteChar (c : Char) (cs : List Char) :
    splitString (Text.quoteChar c ++ cs) =
      (splitString cs).map fun (value, text, rest) =>
        (readBack c ++ value, Text.quoteChar c ++ text, rest) := by
  fun_cases Text.quoteChar c
  case case7 hunprintable =>
    rw [readBack, if_pos hunprintable, splitString_codePointEscape] <;> assumption
  case case8 hbackslash hquote hprintable =>
    have hplain : ∀ d ∈ [c], isPlain d := by
      simp only [List.mem_singleton, forall_eq, isPlain, Bool.and_eq_true, bne_iff_ne]
      exact ⟨hquote, hbackslash⟩
    rw [readBack, if_neg hprintable, splitString_plain hplain] <;> assumption
  all_goals rfl

/-! ### Whole literals -/

theorem splitString_quote (cs rest : List Char) :
    splitString (cs.flatMap Text.quoteChar ++ '"' :: rest) =
      some (cs.flatMap readBack, cs.flatMap Text.quoteChar ++ ['"'], rest) := by
  induction cs with
  | nil => rfl
  | cons c cs ih =>
    rw [List.flatMap_cons, List.append_assoc, splitString_quoteChar, ih]
    simp

/-- A printed text is one literal, whatever it holds. -/
theorem lexes_quote (s : String) (h : Lexes rest ks) :
    Lexes ((Text.quote s).toList ++ rest)
      (.str (String.ofList (s.toList.flatMap readBack)) :: ks) := by
  have hscan : scan '"' (s.toList.flatMap Text.quoteChar ++ '"' :: rest) =
      .ok ⟨.str (String.ofList (s.toList.flatMap readBack)),
        '"' :: (s.toList.flatMap Text.quoteChar ++ ['"']), rest⟩ := by
    rw [scan, find?_signs_eq_none (by decide)]
    simp [scanString, splitString_quote]
  have hstep := Lexes.step (splitTrivia_eq_self (by decide) (by decide)) hscan h
  simpa [Text.quote] using hstep

/-! ### Texts that are read back -/

theorem readBack_eq_iff : readBack c = [c] ↔ c = '\n' ∨ Text.isUnprintable c = false := by
  unfold readBack
  split
  case h_7 hfeed _ _ =>
    have hfeed : c ≠ '\n' := hfeed
    split <;> simp_all
  all_goals decide +kernel

theorem isReadBack_iff : isReadBack c ↔ readBack c = [c] := by
  unfold isReadBack readBack Text.quoteChar
  split
  case h_7 hfeed hbackslash hquote =>
    split <;> simp_all [Text.codePointEscape]
  all_goals decide +kernel

theorem readBack_ne_nil (c : Char) : readBack c ≠ [] := by
  unfold readBack
  split
  case h_7 => split <;> simp
  all_goals simp

theorem length_le_length_flatMap_readBack (cs : List Char) :
    cs.length ≤ (cs.flatMap readBack).length := by
  induction cs with
  | nil => simp
  | cons c cs ih =>
    have := List.length_pos_iff.mpr (readBack_ne_nil c)
    simp only [List.flatMap_cons, List.length_append, List.length_cons]
    omega

/-- A text is read back if each character of it is: no character is read as
none, so that the others cannot take its place. -/
theorem flatMap_readBack_eq_iff : cs.flatMap readBack = cs ↔ ∀ c ∈ cs, readBack c = [c] := by
  induction cs with
  | nil => simp
  | cons c cs ih =>
    rw [List.flatMap_cons, List.forall_mem_cons, ← ih]
    constructor
    · intro h
      obtain ⟨d, ds, hd⟩ := List.exists_cons_of_ne_nil (readBack_ne_nil c)
      have hlen := congrArg List.length h
      have hle := length_le_length_flatMap_readBack cs
      simp only [hd, List.cons_append, List.length_cons, List.length_append] at hlen
      have hnil : ds = [] := List.eq_nil_of_length_eq_zero (by omega)
      rw [hd, hnil] at h ⊢
      obtain ⟨rfl, hcs⟩ := List.cons.inj h
      exact ⟨rfl, hcs⟩
    · rintro ⟨hc, hcs⟩
      rw [hc, hcs]
      rfl

theorem lexes_text {s : String} (hs : ∀ c ∈ s.toList, isReadBack c) (h : Lexes rest ks) :
    Lexes ((Text.quote s).toList ++ rest) (.str s :: ks) := by
  have hback := flatMap_readBack_eq_iff.mpr fun c hc => isReadBack_iff.mp (hs c hc)
  simpa [hback] using lexes_quote s h

theorem tokenize_quote (s : String) :
    (tokenize (Text.quote s)).map kinds =
      .ok [.str (String.ofList (s.toList.flatMap readBack)), .eof] := by
  have hlexes := lexes_quote s (.done rfl : Lexes [] [])
  rw [List.append_nil] at hlexes
  obtain ⟨ts, hts, hkinds⟩ := tokenize_eq_ok_iff.mpr hlexes
  rw [hts]
  exact congrArg Except.ok hkinds

theorem ofList_flatMap_readBack_eq_iff {s : String} :
    String.ofList (s.toList.flatMap readBack) = s ↔
      ∀ c ∈ s.toList, c = '\n' ∨ Text.isUnprintable c = false := by
  rw [← String.toList_inj, String.toList_ofList, flatMap_readBack_eq_iff]
  simp only [readBack_eq_iff]

theorem pretty_text (names : FVarId → Option Name) (s : String) :
    (Expr.lit (.str s)).pretty names = Text.quote s := by
  rw [Expr.pretty, Expr.write]
  rfl

/-- The tokens of a printed literal.  It is read back if each of its characters
is a line feed or printable. -/
theorem tokenize_pretty_text (names : FVarId → Option Name) (s : String) :
    (tokenize ((Expr.lit (.str s)).pretty names)).map kinds =
        .ok [.str (String.ofList (s.toList.flatMap readBack)), .eof] ∧
      ((tokenize ((Expr.lit (.str s)).pretty names)).map kinds = .ok [.str s, .eof] ↔
        ∀ c ∈ s.toList, c = '\n' ∨ Text.isUnprintable c = false) := by
  rw [pretty_text, tokenize_quote, ← ofList_flatMap_readBack_eq_iff]
  simp

/-- The tab has an escape that is read as a letter. -/
theorem tokenize_render_tab :
    (tokenize (Expr.lit (.str "\t")).render).map kinds = .ok [.str "t", .eof] ∧
      (tokenize (Expr.lit (.str "\t")).render).map kinds ≠ .ok [.str "\t", .eof] := by
  have hread : (tokenize (Expr.lit (.str "\t")).render).map kinds = .ok [.str "t", .eof] := by
    rw [Expr.render, pretty_text, tokenize_quote]
    rfl
  exact ⟨hread, by simp [hread]⟩

end Pinpoint.Surface
