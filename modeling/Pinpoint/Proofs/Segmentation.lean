/-
Cutting a text into tokens loses nothing.

`Segments` says what the tokens of a text are to the text: they stand in it in
order and apart from each other, with nothing but blanks and comments between
them, and each is the only token of what it covers.

* `trivia_splitTrivia` — what is taken off before a token is blanks and
  comments;
* `Cuts.separated`, `Cuts.tokens` — what is between the tokens, and what they
  cover, from any place of a text on;
* `segments_of_tokenize` — the tokens of a whole text.
-/
import Pinpoint.Proofs.Lexing

namespace Pinpoint.Surface

variable {cs rest : List Char} {c : Char} {l : Lexeme} {start : Nat} {ts : List Token}

/-! ### Stretches of a text -/

theorem utf8Length_append (cs ds : List Char) :
    utf8Length (cs ++ ds) = utf8Length cs + utf8Length ds := by
  induction cs with
  | nil => simp [utf8Length]
  | cons c cs ih =>
    simp only [List.cons_append, utf8Length, ih]
    omega

theorem utf8Length_pos (h : cs ≠ []) : 0 < utf8Length cs := by
  obtain ⟨c, cs, rfl⟩ := List.exists_cons_of_ne_nil h
  have := c.utf8Size_pos
  simp only [utf8Length]
  omega

/-- The length of a text is what its encoding takes. -/
theorem utf8Length_toList (s : String) : utf8Length s.toList = s.utf8ByteSize := by
  have h (cs : List Char) : utf8Length cs = (String.ofList cs).utf8ByteSize := by
    induction cs with
    | nil => rfl
    | cons c cs ih =>
      rw [String.ofList_cons, String.utf8ByteSize_append, String.utf8ByteSize_singleton, ← ih]
      rfl
  rw [h, String.ofList_toList]

/-- Whether a stretch of a text covers some of its characters, its ends being
between characters. -/
def Span.Covers (span : Span) (cs part : List Char) : Prop :=
  ∃ before after, cs = before ++ part ++ after ∧ span.start = utf8Length before ∧
    span.stop = utf8Length (before ++ part)

/-! ### Blanks and comments -/

/-- Blanks and comments.  A comment goes on to the end of its line, or to the
end of the text if the text ends here. -/
inductive Trivia (atEnd : Prop) : List Char → Prop
  | nil : Trivia atEnd []
  | blank {c : Char} {cs : List Char} : Text.isBlank c → Trivia atEnd cs → Trivia atEnd (c :: cs)
  | comment (body : List Char) {cs : List Char} : '\n' ∉ body → Trivia atEnd cs →
      Trivia atEnd ('-' :: '-' :: (body ++ '\n' :: cs))
  | lastComment (body : List Char) : atEnd → '\n' ∉ body → Trivia atEnd ('-' :: '-' :: body)

theorem Trivia.mono {p q : Prop} (h : Trivia p cs) (hpq : p → q) : Trivia q cs := by
  induction h with
  | nil => exact .nil
  | blank hc _ ih => exact .blank hc ih
  | comment body hbody _ ih => exact .comment body hbody ih
  | lastComment body hp hbody => exact .lastComment body (hpq hp) hbody

/-- Inside a comment any character but the line feed can be left out. -/
theorem trivia_comment_cons {atEnd : Prop} (hc : c ≠ '\n') :
    Trivia atEnd ('-' :: '-' :: c :: cs) ↔ Trivia atEnd ('-' :: '-' :: cs) := by
  have hdash : ¬ Text.isBlank '-' := by decide
  constructor
  · -- The comment loses its first character.
    generalize heq : '-' :: '-' :: c :: cs = text
    intro h
    cases h with
    | nil => cases heq
    | blank hblank => exact absurd ((List.cons.inj heq).1 ▸ hblank) hdash
    | @comment body cs' hbody hcs' =>
      simp only [List.cons.injEq, true_and] at heq
      cases body with
      | nil => exact absurd (List.cons.inj heq).1 hc
      | cons d body =>
        obtain ⟨rfl, rfl⟩ := List.cons.inj heq
        exact .comment body (fun hmem => hbody (List.mem_cons_of_mem _ hmem)) hcs'
    | lastComment body hp hbody =>
      simp only [List.cons.injEq, true_and] at heq
      subst heq
      exact .lastComment cs hp fun hmem => hbody (List.mem_cons_of_mem _ hmem)
  · -- The comment gets one more character, which does not end it.
    generalize heq : '-' :: '-' :: cs = text
    intro h
    cases h with
    | nil => cases heq
    | blank hblank => exact absurd ((List.cons.inj heq).1 ▸ hblank) hdash
    | @comment body cs' hbody hcs' =>
      simp only [List.cons.injEq, true_and] at heq
      subst heq
      exact .comment (c :: body) (by simp [hc.symm, hbody]) hcs'
    | lastComment body hp hbody =>
      simp only [List.cons.injEq, true_and] at heq
      subst heq
      exact .lastComment (c :: cs) hp (by simp [hc.symm, hbody])

/-- What is taken off is blanks and comments, after the dashes of the comment
that the text begins inside of. -/
theorem trivia_splitTrivia (comment : Bool) (cs : List Char) :
    Trivia ((splitTrivia comment cs).2 = [])
      ((if comment then ['-', '-'] else []) ++ (splitTrivia comment cs).1) := by
  fun_induction splitTrivia comment cs with
  | case1 comment =>
    cases comment with
    | true => exact .lastComment [] rfl (by simp)
    | false => exact .nil
  | case2 c cs gap rest heq ih =>
    simp only [heq] at ih ⊢
    by_cases hc : c = '\n'
    · subst hc
      exact .comment [] (by simp) (by simpa using ih)
    · exact (trivia_comment_cons hc).mpr (by simpa [hc] using ih)
  | case3 c cs hc gap rest heq ih =>
    simp only [heq] at ih ⊢
    cases hblank : Text.isBlank c with
    | true => exact .blank hblank (by simpa [hblank] using ih)
    | false =>
      -- the second dash is the first character inside of the comment
      simp only [hblank, Bool.false_or, Bool.and_eq_true, beq_iff_eq] at hc
      obtain ⟨rfl, hhead⟩ := hc
      obtain ⟨cs', rfl⟩ := List.head?_eq_some_iff.mp hhead
      rw [hblank, Bool.not_false, splitTrivia] at heq
      cases heq
      exact (trivia_comment_cons (c := '-') (by decide)).mp (by simpa [hblank] using ih)
  | case4 c cs hc => exact .nil

/-! ### Tokens in their places -/

/-- What a step takes off a text and what it leaves make up the text. -/
theorem append_of_step (hsplit : (splitTrivia false cs).2 = c :: rest)
    (hscan : scan c rest = .ok l) : (splitTrivia false cs).1 ++ l.text ++ l.rest = cs := by
  rw [List.append_assoc, text_append_rest_of_scan hscan, ← hsplit, append_splitTrivia]

/-- What a step takes off a part of a text stands in the text after what stands before
the part. -/
theorem covers_of_step {before : List Char} {pos : Nat}
    (hsplit : (splitTrivia false cs).2 = c :: rest) (hscan : scan c rest = .ok l)
    (hstart : start = utf8Length before) (hpos : pos = start + utf8Length (splitTrivia false cs).1) :
    (Span.mk start pos).Covers (before ++ cs) (splitTrivia false cs).1 ∧
      (Span.mk pos (pos + utf8Length l.text)).Covers (before ++ cs) l.text ∧
      ∃ before', before ++ cs = before' ++ l.rest ∧
        pos + utf8Length l.text = utf8Length before' := by
  have hpos' : pos = utf8Length (before ++ (splitTrivia false cs).1) := by
    rw [hpos, hstart, utf8Length_append]
  have htext : pos + utf8Length l.text =
      utf8Length (before ++ (splitTrivia false cs).1 ++ l.text) := by
    rw [hpos', utf8Length_append _ l.text]
  have happ : before ++ cs = before ++ (splitTrivia false cs).1 ++ l.text ++ l.rest := by
    rw [List.append_assoc, List.append_assoc, ← List.append_assoc _ l.text,
      append_of_step hsplit hscan]
  refine ⟨⟨before, l.text ++ l.rest, ?_, hstart, hpos'⟩,
    ⟨before ++ (splitTrivia false cs).1, l.rest, happ, hpos', htext⟩, _, happ, htext⟩
  rw [happ, List.append_assoc _ l.text]

/-- Whether only blanks and comments stand before each token, since the token
before it or the given place. -/
def Separated (cs : List Char) : Nat → List Token → Prop
  | _, [] => True
  | stop, t :: ts =>
    (∃ gap, (Span.mk stop t.span.start).Covers cs gap ∧ Trivia (t.kind = .eof) gap) ∧
      Separated cs t.span.stop ts

theorem Cuts.separated (h : Cuts start cs ts) (before : List Char)
    (hstart : start = utf8Length before) : Separated (before ++ cs) start ts := by
  induction h generalizing before with
  | @done start stop cs hsplit hstop =>
    have hcs : (splitTrivia false cs).1 = cs := by
      simpa [hsplit] using append_splitTrivia false cs
    refine ⟨⟨cs, ⟨before, [], by simp, hstart, ?_⟩, ?_⟩, trivial⟩
    · rw [hstop, hcs, hstart, utf8Length_append]
    · exact hcs ▸ (trivia_splitTrivia false cs).mono fun _ => rfl
  | @step start pos cs rest c l ts hsplit hpos hscan _ ih =>
    obtain ⟨hgap, -, before', happ, hstop⟩ := covers_of_step hsplit hscan hstart hpos
    refine ⟨⟨_, hgap, (trivia_splitTrivia false cs).mono fun h => ?_⟩, happ ▸ ih before' hstop⟩
    simp [hsplit] at h

/-- Whether a token covers characters of a text that are the same token by
themselves. -/
def Token.StandsIn (t : Token) (cs : List Char) : Prop :=
  t.span.start < t.span.stop ∧ ∃ part, t.span.Covers cs part ∧
    tokenize (String.ofList part) =
      .ok [⟨t.kind, ⟨0, utf8Length part⟩⟩, ⟨.eof, ⟨utf8Length part, utf8Length part⟩⟩]

theorem Cuts.tokens (h : Cuts start cs ts) (before : List Char)
    (hstart : start = utf8Length before) :
    ∀ t ∈ ts, t.kind ≠ .eof → t.StandsIn (before ++ cs) := by
  induction h generalizing before with
  | done => simp
  | @step start pos cs rest c l ts hsplit hpos hscan _ ih =>
    obtain ⟨-, htext, before', happ, hstop⟩ := covers_of_step hsplit hscan hstart hpos
    intro t ht hkind
    rcases List.mem_cons.mp ht with rfl | ht
    · have hne := utf8Length_pos (text_ne_nil_of_scan hscan)
      refine ⟨by simp only; omega, l.text, htext, ?_⟩
      rw [tokenize, String.toList_ofList]
      exact (cuts_self hsplit hscan).tokenizeFrom
    · exact happ ▸ ih before' hstop t ht hkind

theorem Cuts.start_le (h : Cuts start cs ts) : ∀ t ∈ ts, start ≤ t.span.start := by
  induction h with
  | done _ hstop => simp [hstop]
  | step _ hpos _ _ ih =>
    intro t ht
    rcases List.mem_cons.mp ht with rfl | ht
    · simp [hpos]
    · have := ih t ht
      omega

theorem Cuts.pairwise (h : Cuts start cs ts) :
    ts.Pairwise fun t t' => t.span.start < t'.span.start ∧ t.span.stop ≤ t'.span.start := by
  induction h with
  | done => simp
  | step _ _ hscan hrest ih =>
    refine List.pairwise_cons.mpr ⟨fun t ht => ?_, ih⟩
    have hle := hrest.start_le t ht
    have hpos := utf8Length_pos (text_ne_nil_of_scan hscan)
    simp only
    omega

theorem Cuts.eof (h : Cuts start cs ts) :
    ∃ us, ts = us ++ [⟨.eof, ⟨start + utf8Length cs, start + utf8Length cs⟩⟩] ∧
      ∀ t ∈ us, t.kind ≠ .eof := by
  induction h with
  | @done start stop cs hsplit hstop =>
    have hcs : (splitTrivia false cs).1 = cs := by
      simpa [hsplit] using append_splitTrivia false cs
    exact ⟨[], by simp [hstop, hcs], by simp⟩
  | @step start pos cs rest c l ts hsplit hpos hscan _ ih =>
    obtain ⟨us, rfl, hus⟩ := ih
    have hlen := congrArg utf8Length (append_of_step hsplit hscan)
    simp only [utf8Length_append] at hlen
    refine ⟨⟨l.kind, ⟨pos, pos + utf8Length l.text⟩⟩ :: us, ?_, ?_⟩
    · have hend : pos + utf8Length l.text + utf8Length l.rest = start + utf8Length cs := by
        omega
      rw [hend, List.cons_append]
    · simpa using ⟨kind_ne_eof_of_scan hscan, hus⟩

/-! ### Whole texts -/

/-- What the tokens of a text are to the text. -/
structure Segments (text : String) (ts : List Token) : Prop where
  /-- The end of the text is the last token and no other. -/
  eof : ∃ us, ts = us ++ [⟨.eof, ⟨text.utf8ByteSize, text.utf8ByteSize⟩⟩] ∧
    ∀ t ∈ us, t.kind ≠ .eof
  /-- Tokens stand in order and apart from each other. -/
  increasing :
    ts.Pairwise fun t t' => t.span.start < t'.span.start ∧ t.span.stop ≤ t'.span.start
  /-- A token covers some of the text, and this is by itself the same token. -/
  tokens : ∀ t ∈ ts, t.kind ≠ .eof → t.StandsIn text.toList
  /-- Between tokens there is nothing else, from the beginning of the text on. -/
  separated : Separated text.toList 0 ts

/-- The tokens of a text cut all of it into pieces. -/
theorem segments_of_tokenize {text : String} (h : tokenize text = .ok ts) : Segments text ts := by
  have hcuts := cuts_of_tokenizeFrom h
  exact {
    eof := by simpa [utf8Length_toList] using hcuts.eof
    increasing := hcuts.pairwise
    tokens := hcuts.tokens [] rfl
    separated := hcuts.separated [] rfl }

/-- A comment between two tokens, and a sign of two bytes. -/
theorem segments_of_tokenize_comment :
    tokenize "p -- q\n= λ" = .ok [⟨.ident "p", ⟨0, 1⟩⟩, ⟨.eq, ⟨7, 8⟩⟩, ⟨.lam, ⟨9, 11⟩⟩,
        ⟨.eof, ⟨11, 11⟩⟩] ∧
      Segments "p -- q\n= λ" [⟨.ident "p", ⟨0, 1⟩⟩, ⟨.eq, ⟨7, 8⟩⟩, ⟨.lam, ⟨9, 11⟩⟩,
        ⟨.eof, ⟨11, 11⟩⟩] := by
  have hlam : Cuts 8 " λ".toList [⟨.lam, ⟨9, 11⟩⟩, ⟨.eof, ⟨11, 11⟩⟩] :=
    .step (l := ⟨.lam, ['λ'], []⟩) rfl rfl rfl (.done rfl rfl)
  have heq : Cuts 1 " -- q\n= λ".toList [⟨.eq, ⟨7, 8⟩⟩, ⟨.lam, ⟨9, 11⟩⟩, ⟨.eof, ⟨11, 11⟩⟩] :=
    .step (l := ⟨.eq, ['='], " λ".toList⟩) rfl rfl rfl hlam
  have h : tokenize "p -- q\n= λ" = .ok [⟨.ident "p", ⟨0, 1⟩⟩, ⟨.eq, ⟨7, 8⟩⟩, ⟨.lam, ⟨9, 11⟩⟩,
      ⟨.eof, ⟨11, 11⟩⟩] :=
    (Cuts.step (l := ⟨.ident "p", ['p'], " -- q\n= λ".toList⟩) rfl rfl rfl heq).tokenizeFrom
  exact ⟨h, segments_of_tokenize h⟩

end Pinpoint.Surface
