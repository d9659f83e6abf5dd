/-
What is read is readable.

Each reader takes a part that fits its level off the tokens, and stops before a
token that does not go on with the part.  The tokens of the part are the ones
taken, once every group of binders is split.

* `Reader.Recognizes` — a reader takes only terms of its precedence;
* `recognizes_functionTypeUpTo` — all levels do, by induction on the number of
  tokens, with a lemma for each level;
* `isReadable_of_ofTokens` — so does the reader of whole texts;
* `parse_exact` — what is read is exactly what is readable.
-/
import Pinpoint.Proofs.BinderGroups
import Pinpoint.Proofs.Lexing
import Pinpoint.Proofs.ReadBack

namespace Pinpoint.Surface

variable {n prec prec' stop stop' : Nat} {ts us mid rest : List Token} {e : Term} {t : Token}
  {out out' : List TokenKind}

/-! ### What is taken off some tokens -/

/-- Whether the tokens taken, with their groups split, are `out`. -/
def Takes (ts : List Token) (out : List TokenKind) (rest : List Token) : Prop :=
  ∃ us, ts = us ++ rest ∧ Regroups (kinds us) out

theorem takes_token {k : TokenKind} (ht : t.kind = k) (hopen : k.closing? = none)
    (hclosing : k.isClosing = false) (hend : k ≠ .eof) : Takes (t :: rest) [k] rest :=
  ⟨[t], rfl, by rw [kinds_cons, ht]; exact regroups_singleton hopen hclosing hend⟩

theorem Takes.append (h : Takes ts out mid) (h' : Takes mid out' rest) :
    Takes ts (out ++ out') rest := by
  obtain ⟨us, rfl, hus⟩ := h
  obtain ⟨vs, rfl, hvs⟩ := h'
  exact ⟨us ++ vs, (List.append_assoc ..).symm, by simpa using hus.append hvs⟩

/-- Two parts and a sign between them. -/
theorem Takes.between {k : TokenKind} (h : Takes ts out (t :: mid)) (ht : t.kind = k)
    (hopen : k.closing? = none) (hclosing : k.isClosing = false) (hend : k ≠ .eof)
    (h' : Takes mid out' rest) : Takes ts (out ++ k :: out') rest :=
  h.append ((takes_token ht hopen hclosing hend).append h')

/-- Whether the identifiers among some tokens are spelled as identifiers. -/
def WellSpelled (ts : List Token) : Prop := ∀ t ∈ ts, ∀ s, t.kind = .ident s → isIdentifier s

theorem WellSpelled.of_append (h : WellSpelled (us ++ rest)) : WellSpelled rest :=
  fun t ht => h t (List.mem_append_right us ht)

theorem WellSpelled.of_cons (h : WellSpelled (t :: rest)) : WellSpelled rest :=
  fun t' ht => h t' (List.mem_cons_of_mem t ht)

/-- Whether a term of precedence `prec` was taken off some tokens, and reading
at precedence `stop` ends with it. -/
structure ReadAs (prec stop : Nat) (ts : List Token) (e : Term) (rest : List Token) : Prop where
  takes : Takes ts e.tokens rest
  fits : e.fits Term.standsBefore prec
  endsAt : e.EndsAt stop (nextKind rest)

/-- Whether a reader takes only well-formed terms of a precedence. -/
def Reader.Recognizes (prec : Nat) (r : Reader n Term) : Prop :=
  ∀ {ts rest : List Token} {e : Term}, WellSpelled ts → r.Reads ts e rest →
    ReadAs prec prec ts e rest

theorem ReadAs.wellSpelled (h : ReadAs prec stop ts e rest) (hts : WellSpelled ts) :
    WellSpelled rest := by
  obtain ⟨us, rfl, -⟩ := h.takes
  exact hts.of_append

/-- Less may be asked for, where no token between goes on with the term. -/
theorem ReadAs.lower (h : ReadAs prec stop ts e rest) (hle : prec' ≤ prec)
    (hgap : ∀ g, IsGrade g → (nextKind rest).grade? = some g → g < stop → g < stop') :
    ReadAs prec' stop' ts e rest where
  takes := h.takes
  fits := e.fits_mono h.fits hle
  endsAt g hg := Term.endsBefore_of_imp (h.endsAt g hg) (hgap g (isGrade_of_grade? hg) hg)

/-! ### Operators that group to the left -/

theorem Operator.closing?_token (op : Operator) : op.token.closing? = none := by
  cases op <;> rfl

theorem Operator.isClosing_token (op : Operator) : op.token.isClosing = false := by
  cases op <;> rfl

theorem eq_token_of_grade? {op : Operator} {k : TokenKind} (h : k.grade? = some op.precedence) :
    k = op.token := by
  cases op <;> cases k <;> first | rfl | cases h

/-- One operation, of operands before and after its sign. -/
theorem ReadAs.join {op : Operator} {lhs rhs : Term}
    (hlhs : ReadAs op.leftGrade (op.precedence + 1) ts lhs (t :: mid)) (ht : t.kind = op.token)
    (hrhs : ReadAs op.rightPrecedence op.rightPrecedence mid rhs rest) :
    ReadAs op.precedence (op.precedence + 1) ts (Term.join op lhs rhs) rest where
  takes := hlhs.takes.between ht (Operator.closing?_token op) (Operator.isClosing_token op)
    (Operator.token_ne_eof op) hrhs.takes
  fits := by
    simp only [Term.join, Term.fits, Bool.and_eq_true, decide_eq_true_eq]
    have hstands := hlhs.endsAt op.precedence (by rw [nextKind_cons, ht, grade?_token])
    exact ⟨⟨⟨Nat.le_refl _, hlhs.fits⟩, hstands⟩, hrhs.fits⟩
  endsAt g hg := by
    simp only [Term.join, Term.endsBefore, passes, Bool.and_eq_true, Bool.or_eq_true,
      decide_eq_true_eq]
    exact ⟨.inl (by omega), hrhs.endsAt g hg⟩

theorem readAs_joinLeft {op : Operator} (hop : op ≠ .eq) {item : Reader n Term}
    (hitem : item.Recognizes op.rightPrecedence) {others : List Term}
    (hothers : ReadsFurther op.token item mid others rest) {first : Term}
    (hfirst : ReadAs op.precedence (op.precedence + 1) ts first mid) (hts : WellSpelled ts) :
    ReadAs op.precedence (op.precedence + 1) ts (joinLeft (Term.join op) first others) rest ∧
      nextKind rest ≠ op.token := by
  induction hothers generalizing first with
  | done hne => exact ⟨hfirst, hne⟩
  | step ht hreads _ ih =>
    have hmid := hfirst.wellSpelled hts
    have hlhs := hfirst.lower (Nat.le_of_eq (Operator.leftGrade_eq hop)) fun _ _ _ hlt => hlt
    exact ih (hlhs.join ht (hitem hmid.of_cons hreads))

/-- Operands joined to the left, where no token goes on with looser ones. -/
theorem recognizes_separated (op : Operator) (hop : op ≠ .eq) {item : Reader n Term}
    (hitem : item.Recognizes op.rightPrecedence) (hle : prec ≤ op.precedence)
    (hgap : ∀ g, IsGrade g → g < op.precedence → g < prec) :
    Reader.Recognizes prec (separated op.token (joinLeft (Term.join op)) item) := by
  intro ts rest e hts hreads
  obtain ⟨first, mid, others, hfirst, hothers, rfl⟩ :=
    (separated_reads (Operator.token_ne_eof op)).mp hreads
  have hright := Operator.rightPrecedence_eq op
  have hread : ReadAs op.precedence (op.precedence + 1) ts first mid :=
    (hitem hts hfirst).lower (by omega) (fun g _ _ hlt => by omega)
  obtain ⟨hread, hne⟩ := readAs_joinLeft hop hitem hothers hread hts
  refine hread.lower hle fun g hgrade hg hlt => hgap g hgrade ?_
  -- the token of this very grade is the sign, which the reader has not left
  have : g ≠ op.precedence := by
    rintro rfl
    exact hne (eq_token_of_grade? hg)
  omega

/-! ### Equations and function types -/

theorem recognizes_equation {atom : Reader n Term}
    (hsum : Reader.Recognizes Operator.eq.leftPrecedence (sum atom)) :
    Reader.Recognizes (Precedence.arrow + 1) (equation atom) := by
  intro ts rest e hts hreads
  rcases equation_reads.mp hreads with ⟨hreads, hne⟩ | ⟨lhs, t, mid, rhs, hlhs, ht, hrhs, rfl⟩
  · refine (hsum hts hreads).lower (by decide) fun g hgrade hg hlt => ?_
    have : g ≠ Operator.eq.precedence := by
      rintro rfl
      exact hne (eq_token_of_grade? hg)
    simp only [IsGrade, Operator.leftPrecedence, Operator.precedence, Precedence.arrow]
      at hgrade hlt this ⊢
    omega
  · have hread := hsum hts hlhs
    have hmid := hread.wellSpelled hts
    have hjoin : ReadAs Operator.eq.precedence (Operator.eq.precedence + 1) ts
        (Term.join .eq lhs rhs) rest := ReadAs.join hread ht (hsum hmid.of_cons hrhs)
    refine ⟨hjoin.takes, Term.fits_mono hjoin.fits (by decide), fun g hg => ?_⟩
    have hends := hjoin.endsAt g hg
    have hgrade := isGrade_of_grade? hg
    simp only [Term.join, Term.endsBefore, passes, Bool.and_eq_true, Bool.or_eq_true,
      decide_eq_true_eq] at hends ⊢
    refine ⟨?_, hends.2⟩
    simp only [IsGrade, Operator.precedence, Precedence.arrow, true_and] at hgrade ⊢
    omega

theorem readAs_arrow {dom cod : Term}
    (hdom : ReadAs (Precedence.arrow + 1) (Precedence.arrow + 1) ts dom (t :: mid))
    (ht : t.kind = .arrow) (hcod : ReadAs Precedence.arrow Precedence.arrow mid cod rest)
    (hne : nextKind rest ≠ .arrow) :
    ReadAs Precedence.arrow Precedence.arrow ts (Term.joinArrow dom cod) rest where
  takes := hdom.takes.between ht rfl rfl (by decide) hcod.takes
  fits := by
    simp only [Term.joinArrow, Term.fits, Bool.and_eq_true, decide_eq_true_eq]
    have hstands := hdom.endsAt Precedence.arrow (by rw [nextKind_cons, ht]; rfl)
    exact ⟨⟨⟨Nat.le_refl _, hdom.fits⟩, hstands⟩, hcod.fits⟩
  endsAt g hg := by
    simp only [Term.joinArrow, Term.endsBefore, passes, Bool.and_eq_true, Bool.or_eq_true,
      decide_eq_true_eq]
    refine ⟨Nat.lt_or_gt_of_ne ?_, hcod.endsAt g hg⟩
    rintro rfl
    exact hne (by generalize nextKind rest = k at hg; cases k <;> first | rfl | cases hg)

theorem readAs_joinRight {item : Reader n Term} (hitem : item.Recognizes (Precedence.arrow + 1))
    {others : List Term} (hothers : ReadsFurther .arrow item mid others rest) {first : Term}
    (hfirst : item.Reads ts first mid) (hts : WellSpelled ts) :
    ReadAs Precedence.arrow Precedence.arrow ts (joinRight Term.joinArrow first others) rest ∧
      nextKind rest ≠ .arrow := by
  have hread := hitem hts hfirst
  induction hothers generalizing ts first with
  | done hne =>
    refine ⟨hread.lower (Nat.le_succ _) fun g _ hg hlt => ?_, hne⟩
    refine Nat.lt_of_le_of_ne (Nat.lt_succ_iff.mp hlt) ?_
    rintro rfl
    exact hne (by generalize nextKind _ = k at hg; cases k <;> first | rfl | cases hg)
  | step ht hreads _ ih =>
    have hmid := (hread.wellSpelled hts).of_cons
    obtain ⟨hcod, hne⟩ := ih hreads hmid (hitem hmid hreads)
    exact ⟨readAs_arrow hread ht hcod hne, hne⟩

/-! ### Applications -/

/-- A binder that was read is followed by no argument. -/
theorem startsAtom_eq_false_of_isBinder (h : e.EndsAt prec (nextKind rest)) (he : e.isBinder) :
    (nextKind rest).startsAtom = false := by
  cases hstarts : (nextKind rest).startsAtom with
  | false => rfl
  | true =>
    have hends := h _ (grade?_of_startsAtom hstarts)
    have hend : e.endsInBinder := by cases e <;> first | rfl | cases he
    exact absurd (e.eq_of_endsBefore_of_endsInBinder hend hends) (by decide)

theorem standsBefore_of_startsAtom (h : e.EndsAt Precedence.arg (nextKind rest))
    (hstarts : (nextKind rest).startsAtom) : e.standsBefore Precedence.app :=
  h _ (grade?_of_startsAtom hstarts)

/-- The arguments that follow an argument, or none. -/
theorem readAs_arguments {atom : Reader n Term} (hatom : atom.Recognizes Precedence.arg)
    {ts mid : List Token} {a : Term} {others : List Term}
    (hread : ReadAs Precedence.arg Precedence.arg ts a mid) (hts : WellSpelled ts)
    (hbinder : others = [] ∨ a.isBinder = false)
    (hothers : ReadsArguments atom mid others rest) :
    Takes ts (Args.ofList a others).tokens rest ∧ (Args.ofList a others).fit Term.standsBefore ∧
      (∀ g, (nextKind rest).grade? = some g → (Args.ofList a others).endsBefore g) := by
  cases hothers with
  | done => exact ⟨hread.takes, hread.fits, hread.endsAt⟩
  | @last _ _ b hstarts hb _ =>
    have hmid := hread.wellSpelled hts
    have hlast := hatom hmid hb
    refine ⟨hread.takes.append hlast.takes, ?_, hlast.endsAt⟩
    simp only [Args.ofList, Args.fit, Bool.and_eq_true]
    exact ⟨⟨hread.fits, standsBefore_of_startsAtom hread.endsAt hstarts⟩, hlast.fits⟩
  | @step _ mid' _ b others hstarts hb hbinder' hothers =>
    have hmid := hread.wellSpelled hts
    obtain ⟨htakes, hfit, hends⟩ := readAs_arguments hatom (hatom hmid hb) hmid (.inr hbinder')
      hothers
    refine ⟨hread.takes.append htakes, ?_, hends⟩
    simp only [Args.ofList, Args.fit, Bool.and_eq_true]
    exact ⟨⟨hread.fits, standsBefore_of_startsAtom hread.endsAt hstarts⟩, hfit⟩
termination_by others.length

theorem ReadsArguments.nextKind {atom : Reader n Term} (hatom : atom.Recognizes Precedence.arg)
    {args : List Term} (h : ReadsArguments atom ts args rest) (hts : WellSpelled ts) :
    (nextKind rest).startsAtom = false := by
  induction h with
  | done hnone => exact hnone
  | last _ ha hbinder => exact startsAtom_eq_false_of_isBinder (hatom hts ha).endsAt hbinder
  | step _ ha _ _ ih => exact ih ((hatom hts ha).wellSpelled hts)

theorem recognizes_application {atom : Reader n Term} (hatom : atom.Recognizes Precedence.arg) :
    Reader.Recognizes Operator.mul.rightPrecedence (application atom) := by
  intro ts rest e hts hreads
  obtain ⟨head, mid, args, hhead, hargs, rfl⟩ := application_reads.mp hreads
  have hread := hatom hts hhead
  have hmid := hread.wellSpelled hts
  have hnext := hargs.nextKind hatom hmid
  -- The argument list is as long as it can be, so that no atom follows.
  have hne : ∀ g, (nextKind rest).grade? = some g → g ≠ 1024 := by
    rintro g hg rfl
    exact absurd (startsAtom_of_grade? hg) (by simp [hnext])
  cases args with
  | nil =>
    cases hargs with
    | done =>
      refine hread.lower (by decide) fun g hgrade hg _ => ?_
      have := hne g hg
      simp only [IsGrade, Operator.rightPrecedence] at hgrade ⊢
      omega
  | cons a others =>
    -- The first argument decides how the head ends, and the others follow as a spine.
    have hstarts : (nextKind mid).startsAtom := by cases hargs <;> assumption
    obtain ⟨mid', ha, hbinder, hothers⟩ : ∃ mid', atom.Reads mid a mid' ∧
        (others = [] ∨ a.isBinder = false) ∧ ReadsArguments atom mid' others rest := by
      cases hargs with
      | last _ ha hbinder => exact ⟨rest, ha, .inl rfl, .done hnext⟩
      | step _ ha hbinder hothers => exact ⟨_, ha, .inr hbinder, hothers⟩
    obtain ⟨htakes, hfit, hends⟩ := readAs_arguments hatom (hatom hmid ha) hmid hbinder hothers
    refine ⟨hread.takes.append htakes, ?_, fun g hg => ?_⟩
    · simp only [Term.apply, Term.fits, Bool.and_eq_true, decide_eq_true_eq]
      exact ⟨⟨⟨by decide, hread.fits⟩, standsBefore_of_startsAtom hread.endsAt hstarts⟩, hfit⟩
    · simp only [Term.apply, Term.endsBefore, passes, Bool.and_eq_true, Bool.or_eq_true,
        decide_eq_true_eq]
      have := hne g hg
      have hgrade := isGrade_of_grade? hg
      simp only [IsGrade, Operator.rightPrecedence, Precedence.app] at hgrade ⊢
      exact ⟨by omega, hends g hg⟩

/-! ### Binders and atoms -/

theorem isIdentifier_underscore : isIdentifier "_" = false := by decide +kernel

/-- A name is the token that its binder is written as. -/
theorem token_of_binder? {b : Binder} (hspelled : ∀ s, t.kind = .ident s → isIdentifier s)
    (h : binder? t = some b) : t.kind = b.token ∧ b.isWritable := by
  unfold binder? at h
  split at h
  · rename_i s hs
    cases h
    have hs' := hspelled s hs
    have hne : s ≠ "_" := by
      rintro rfl
      exact absurd hs' (by simp [isIdentifier_underscore])
    simp [Binder.token, Binder.isWritable, hs, hs', hne]
  · rename_i hs
    cases h
    simp [Binder.token, Binder.isWritable, hs]
  · cases h

theorem names_of_readsNames {bs : List Binder} (h : ReadsNames ts bs rest)
    (hts : WellSpelled ts) :
    ∃ us, ts = us ++ rest ∧ kinds us = bs.map Binder.token ∧ (∀ k ∈ kinds us, k.isName) ∧
      ∀ b ∈ bs, b.isWritable := by
  induction h with
  | done => exact ⟨[], rfl, rfl, by simp [kinds], by simp⟩
  | @step t ts rest b bs hb _ ih =>
    obtain ⟨us, rfl, hus, hnames, hbs⟩ := ih hts.of_cons
    obtain ⟨ht, hwritable⟩ := token_of_binder? (hts t List.mem_cons_self) hb
    have hname := isName_of_binder? hb
    refine ⟨t :: us, rfl, by simp [kinds, ht, ← hus], ?_, ?_⟩
    · simpa [kinds, hname] using hnames
    · simpa [hwritable] using hbs

theorem tokens_group (type : Term) (b : Binder) (others : List Binder) :
    (Binders.group type b others).tokens =
      groupsOf ((b :: others).map Binder.token) type.tokens := by
  induction others generalizing b with
  | nil => simp [Binders.group, Binders.tokens, groupsOf]
  | cons next others ih =>
    rw [Binders.group, Binders.tokens, ih]
    simp [groupsOf]

theorem fit_group {before : Nat → Term → Bool} {type : Term}
    (htype : type.fits before Precedence.binder) {b : Binder} {others : List Binder}
    (h : ∀ b' ∈ b :: others, b'.isWritable) : (Binders.group type b others).fit before := by
  induction others generalizing b with
  | nil =>
    simp only [Binders.group, Binders.fit, Bool.and_eq_true]
    exact ⟨h b List.mem_cons_self, htype⟩
  | cons next others ih =>
    simp only [Binders.group, Binders.fit, Bool.and_eq_true]
    exact ⟨⟨h b List.mem_cons_self, htype⟩, ih fun b' hb' => h b' (List.mem_cons_of_mem _ hb')⟩

theorem tokens_append (bs others : Binders) :
    (bs.append others).tokens = bs.tokens ++ others.tokens := by
  fun_induction Binders.append bs others with
  | case1 => simp [Binders.tokens]
  | case2 _ _ _ _ ih => simp [Binders.tokens, ih]

theorem fit_append {before : Nat → Term → Bool} {bs others : Binders} (h : bs.fit before)
    (h' : others.fit before) : (bs.append others).fit before := by
  fun_induction Binders.append bs others with
  | case1 =>
    simp only [Binders.fit, Bool.and_eq_true] at h ⊢
    exact ⟨h, h'⟩
  | case2 _ _ _ _ ih =>
    simp only [Binders.fit, Bool.and_eq_true] at h ⊢
    exact ⟨h.1, ih h.2 h'⟩

/-- One group: its names and the tokens of their type. -/
theorem binderGroup_of_reads {type : Reader n Term} (htype : type.Recognizes prec) {bs : Binders}
    (hreads : (binderGroup type).Reads ts bs rest) (hts : WellSpelled ts) :
    ∃ names us colon out, ts = names ++ colon :: us ++ rest ∧ (∀ k ∈ kinds names, k.isName) ∧
      names ≠ [] ∧ colon.kind = .colon ∧ Regroups (kinds us) out ∧
      bs.tokens = groupsOf (kinds names) out ∧ bs.fit Term.standsBefore := by
  obtain ⟨-, b, others, colon, mid, t, hnames, hcolon, ht, rfl⟩ := binderGroup_reads.mp hreads
  obtain ⟨names, rfl, hkinds, hisName, hwritable⟩ := names_of_readsNames hnames hts
  have hread := htype hts.of_append.of_cons ht
  obtain ⟨us, rfl, hus⟩ := hread.takes
  refine ⟨names, us, colon, _, by simp, hisName, ?_, hcolon, hus, ?_,
    fit_group (Term.fits_mono hread.fits (Nat.zero_le _)) hwritable⟩
  · rintro rfl
    cases hkinds
  · rw [tokens_group, hkinds]

theorem groups_of_reads {functionType : Reader n Term}
    (hterm : Reader.Recognizes Precedence.binder (equivalence functionType)) {bs : Binders}
    (h : ReadsGroups functionType ts bs rest) (hts : WellSpelled ts) :
    ∃ us, ts = us ++ rest ∧ RegroupsBinders (.lparen :: kinds us) bs.tokens ∧
      bs.fit Term.standsBefore := by
  induction h with
  | @last ts rest close bs hgroup hclose _ =>
    obtain ⟨names, us, colon, out, rfl, hnames, -, hcolon, hus, htokens, hfit⟩ :=
      binderGroup_of_reads hterm hgroup hts
    refine ⟨names ++ colon :: us ++ [close], by simp, ?_, hfit⟩
    have := RegroupsBinders.cons hnames hus regroupsBinders_nil
    simpa [kinds, hcolon, hclose, htokens] using this
  | @step ts mid rest close opening bs others hgroup hclose hopening _ ih =>
    obtain ⟨names, us, colon, out, rfl, hnames, -, hcolon, hus, htokens, hfit⟩ :=
      binderGroup_of_reads hterm hgroup hts
    obtain ⟨vs, rfl, hvs, hfit'⟩ := ih hts.of_append.of_cons.of_cons
    refine ⟨names ++ colon :: us ++ close :: opening :: vs, by simp, ?_, fit_append hfit hfit'⟩
    have := RegroupsBinders.cons hnames hus hvs
    simpa [kinds, hcolon, hclose, hopening, htokens, tokens_append] using this

theorem binders_of_reads {functionType : Reader n Term}
    (htype : functionType.Recognizes Operator.iff.rightPrecedence)
    (hterm : Reader.Recognizes Precedence.binder (equivalence functionType)) {bs : Binders}
    (h : (binders functionType).Reads ts bs rest) (hts : WellSpelled ts) :
    ∃ us, ts = us ++ rest ∧ RegroupsBinders (kinds us) bs.tokens ∧
      bs.fit Term.standsBefore := by
  rcases binders_reads.mp h with ⟨t, mid, rfl, -, ht, hgroups⟩ | ⟨-, hgroup⟩
  · obtain ⟨us, rfl, hus, hfit⟩ := groups_of_reads hterm hgroups hts.of_cons
    exact ⟨t :: us, rfl, by simpa [kinds, ht] using hus, hfit⟩
  · obtain ⟨names, us, colon, out, rfl, hnames, hne, hcolon, hus, htokens, hfit⟩ :=
      binderGroup_of_reads htype hgroup hts
    refine ⟨names ++ colon :: us, rfl, ?_, hfit⟩
    have := regroupsBinders_bare hnames (by simpa [kinds] using hne) hus
    simpa [kinds, hcolon, htokens] using this

/-- A sign, binders and a body. -/
theorem scope_of_reads {functionType : Reader n Term} {k separator : TokenKind}
    (htype : functionType.Recognizes Operator.iff.rightPrecedence)
    (hterm : Reader.Recognizes Precedence.binder (equivalence functionType))
    (hk : k = .all ∨ k = .lam) (hclosing : k.closing? = some separator) (ht : t.kind = k)
    {s : Binders × Term} (h : (scope functionType separator).Reads ts s rest)
    (hts : WellSpelled ts) :
    Takes (t :: ts) (k :: (s.1.tokens ++ separator :: s.2.tokens)) rest ∧
      s.1.fit Term.standsBefore ∧ s.2.fits Term.standsBefore Precedence.binder ∧
      s.2.EndsAt Precedence.binder (nextKind rest) := by
  obtain ⟨sign, mid, hbinders, hsign, hbody⟩ := scope_reads.mp h
  obtain ⟨us, rfl, hus, hfit⟩ := binders_of_reads htype hterm hbinders hts
  have hread := hterm hts.of_append.of_cons hbody
  obtain ⟨vs, rfl, hvs⟩ := hread.takes
  refine ⟨⟨t :: us ++ sign :: vs, by simp, ?_⟩, hfit, hread.fits, hread.endsAt⟩
  simpa [kinds, ht, hsign] using hus.scope hk hclosing hvs

theorem recognizes_atom {functionType : Reader n Term}
    (htype : functionType.Recognizes Operator.iff.rightPrecedence)
    (hterm : Reader.Recognizes Precedence.binder (equivalence functionType)) :
    Reader.Recognizes Precedence.arg (atom functionType) := by
  intro ts rest e hts hreads
  have hgrade : ∀ g, (nextKind rest).grade? = some g → g < Precedence.arg := by
    intro g hg
    have := isGrade_of_grade? hg
    simp only [IsGrade, Precedence.arg] at this ⊢
    omega
  cases (atom_reads.mp hreads).2 with
  | @ident t _ s ht =>
    have hs := hts t List.mem_cons_self s ht
    -- Two of the words are universes; every other one is an identifier.
    have htakes : Takes (t :: rest) [.ident s] rest := takes_token ht rfl rfl (by simp)
    unfold Term.ofIdent
    split
    · subst s
      exact ⟨htakes, rfl, fun g hg => by simpa [Term.endsBefore] using hgrade g hg⟩
    · split
      · subst s
        exact ⟨htakes, rfl, fun g hg => by simpa [Term.endsBefore] using hgrade g hg⟩
      · refine ⟨htakes, ?_, fun g hg => by simpa [Term.endsBefore] using hgrade g hg⟩
        simp [Term.fits, *]
  | @nat t _ k ht =>
    exact ⟨takes_token ht rfl rfl (by simp), rfl,
      fun g hg => by simpa [Term.endsBefore] using hgrade g hg⟩
  | @str t _ s ht =>
    exact ⟨takes_token ht rfl rfl (by simp), rfl,
      fun g hg => by simpa [Term.endsBefore] using hgrade g hg⟩
  | @paren t close ts _ e ht hinner hclose =>
    have hread := hterm hts.of_cons hinner
    obtain ⟨us, rfl, hus⟩ := hread.takes
    refine ⟨⟨t :: us ++ [close], by simp, ?_⟩, hread.fits,
      fun g hg => by simpa [Term.endsBefore] using hgrade g hg⟩
    simpa [kinds, ht, hclose, Term.tokens] using hus.paren
  | @pi t _ _ s ht hs =>
    obtain ⟨htakes, hfit, hbody, hends⟩ :=
      scope_of_reads htype hterm (.inl rfl) rfl ht hs hts.of_cons
    refine ⟨htakes, by simp [Term.fits, hfit, hbody], fun g hg => ?_⟩
    simp only [Term.endsBefore, Bool.and_eq_true, decide_eq_true_eq]
    exact ⟨hgrade g hg, hends g hg⟩
  | @lam t _ _ s ht hs =>
    obtain ⟨htakes, hfit, hbody, hends⟩ :=
      scope_of_reads htype hterm (.inr rfl) rfl ht hs hts.of_cons
    refine ⟨htakes, by simp [Term.fits, hfit, hbody], fun g hg => ?_⟩
    simp only [Term.endsBefore, Bool.and_eq_true, decide_eq_true_eq]
    exact ⟨hgrade g hg, hends g hg⟩

/-! ### All levels -/

theorem recognizes_functionType {atom : Reader n Term} (hatom : atom.Recognizes Precedence.arg) :
    Reader.Recognizes Operator.iff.rightPrecedence (functionType atom) := by
  have hproduct : Reader.Recognizes Operator.add.rightPrecedence (product atom) :=
    recognizes_separated .mul (by decide) (recognizes_application hatom) (by decide)
      fun g hgrade hlt => by
        simp only [IsGrade, Operator.rightPrecedence, Operator.precedence] at hgrade hlt ⊢
        omega
  have hsum : Reader.Recognizes Operator.eq.leftPrecedence (sum atom) :=
    recognizes_separated .add (by decide) hproduct (by decide)
      fun g hgrade hlt => by
        simp only [IsGrade, Operator.leftPrecedence, Operator.precedence] at hgrade hlt ⊢
        omega
  intro ts rest e hts hreads
  obtain ⟨first, mid, others, hfirst, hothers, rfl⟩ :=
    (separated_reads (by decide : TokenKind.arrow ≠ .eof)).mp hreads
  obtain ⟨hread, -⟩ := readAs_joinRight (recognizes_equation hsum) hothers hfirst hts
  refine hread.lower (by decide) fun g hgrade _ hlt => ?_
  simp only [IsGrade, Operator.rightPrecedence, Precedence.arrow] at hgrade hlt ⊢
  omega

theorem recognizes_equivalence {functionType : Reader n Term}
    (h : functionType.Recognizes Operator.iff.rightPrecedence) :
    Reader.Recognizes Precedence.binder (equivalence functionType) :=
  recognizes_separated .iff (by decide) h (by decide) fun g hgrade hlt => by
    simp only [IsGrade, Operator.precedence] at hgrade hlt
    omega

theorem recognizes_functionTypeUpTo (n : Nat) :
    Reader.Recognizes Operator.iff.rightPrecedence (functionTypeUpTo n) := by
  induction n with
  | zero =>
    rintro ts rest e _ ⟨_, _, heq⟩
    cases heq
  | succ n ih => exact recognizes_functionType (recognizes_atom ih (recognizes_equivalence ih))

/-- What is read is readable, and has the tokens it was read from. -/
theorem isReadable_of_ofTokens {ts : List Token} {ks : List TokenKind} {e : Term}
    (hspelled : WellSpelled ts) (hkinds : kinds ts = ks ++ [.eof]) (hend : .eof ∉ ks)
    (h : Term.ofTokens ts = .ok e) :
    e.isReadable ∧ splitGroups (kinds ts) = e.tokens ++ [.eof] := by
  obtain ⟨⟨v, rest, hs⟩, hterm, hfinish⟩ := bind_eq_ok.mp h
  obtain ⟨_, hfinish, heq⟩ := bind_eq_ok.mp hfinish
  cases heq
  have hread := recognizes_equivalence (recognizes_functionTypeUpTo _) hspelled ⟨_, _, hterm⟩
  obtain ⟨us, rfl, hus⟩ := hread.takes
  refine ⟨hread.fits, ?_⟩
  -- the first end of the text, where reading has stopped, is also the last token
  have hrest : kinds rest = [.eof] := by
    rw [kinds_append] at hkinds
    cases rest with
    | nil =>
      refine absurd ?_ hus.noEnd
      rw [← List.append_nil (kinds us)]
      exact hkinds ▸ List.mem_append_right ks List.mem_cons_self
    | cons t rest =>
      have ht : t.kind = .eof := by
        by_cases ht : t.kind = .eof
        · exact ht
        · rw [finish, if_neg ht] at hfinish
          cases hfinish
      rw [kinds_cons, ht] at hkinds ⊢
      rcases List.append_eq_append_iff.mp hkinds with ⟨vs, rfl, heq⟩ | ⟨vs, heq', heq⟩
      · cases vs with
        | nil => exact heq
        | cons v vs =>
          obtain ⟨rfl, -⟩ := List.cons.inj heq
          exact absurd (List.mem_append_right _ List.mem_cons_self) hend
      · cases vs with
        | nil => exact heq.symm
        | cons v vs =>
          obtain ⟨rfl, -⟩ := List.cons.inj heq
          exact absurd (heq' ▸ List.mem_append_right _ List.mem_cons_self) hus.noEnd
  rw [kinds_append, hus.splits, hrest, splitGroups_cons (by decide), splitGroups]

/-! ### Whole texts -/

theorem wellSpelled_of_tokenize {text : String} (h : tokenize text = .ok ts) :
    WellSpelled ts ∧ ∃ ks, kinds ts = ks ++ [.eof] ∧ .eof ∉ ks := by
  obtain ⟨ks, hlexes, hkinds⟩ := lexes_of_tokenizeFrom h
  refine ⟨fun t ht s hs => ?_, ks, hkinds, hlexes.noEnd⟩
  have hmem : TokenKind.ident s ∈ kinds ts := hs ▸ List.mem_map_of_mem ht
  rw [hkinds] at hmem
  exact hlexes.isIdentifier (by simpa using hmem)

/-- A readable term is found in its tokens, and a term that is found is
readable and in its tokens, once the groups of binders are split.  Of the
readable terms the grammar has those in which no left side of an equation ends
in a binder. -/
theorem parse_exact (e : Term) :
    (e.isReadable → ∀ ts, kinds ts = e.tokens ++ [.eof] →
      ∃ e', Term.ofTokens ts = .ok e' ∧ e'.bare = e.bare) ∧
    (∀ text, Term.parse text = .ok e →
      e.isReadable ∧ ∃ ts, tokenize text = .ok ts ∧ splitGroups (kinds ts) = e.tokens ++ [.eof]) ∧
    (e.isGrammatical ↔ e.isReadable ∧ e.equatesNoBinder) := by
  refine ⟨fun hread ts => ofTokens_tokens hread, fun text h => ?_, Term.isGrammatical_iff⟩
  obtain ⟨ts, hts, he⟩ := bind_eq_ok.mp h
  obtain ⟨hspelled, ks, hkinds, hend⟩ := wellSpelled_of_tokenize hts
  obtain ⟨hread, hsplit⟩ := isReadable_of_ofTokens hspelled hkinds hend he
  exact ⟨hread, ts, hts, hsplit⟩

theorem parse_exact_group :
    (∃ e, Term.ofTokens [⟨.nat 1, ⟨0, 1⟩⟩, ⟨.plus, ⟨2, 3⟩⟩, ⟨.nat 2, ⟨4, 5⟩⟩, ⟨.eof, ⟨5, 5⟩⟩] =
      .ok e ∧ e.bare = .binary .nowhere .add (.nat .nowhere 1) (.nat .nowhere 2)) ∧
    (∃ e ts, Term.parse "∀ x y : T, x = y" = .ok e ∧ e.isReadable ∧
      tokenize "∀ x y : T, x = y" = .ok ts ∧ splitGroups (kinds ts) = e.tokens ++ [.eof]) := by
  refine ⟨(parse_exact (.binary .nowhere .add (.nat .nowhere 1) (.nat .nowhere 2))).1 (by decide) _
    (by decide), ?_⟩
  have hok : (Term.parse "∀ x y : T, x = y").isOk := by decide +kernel
  cases h : Term.parse "∀ x y : T, x = y" with
  | error e =>
    rw [h] at hok
    cases hok
  | ok e =>
    obtain ⟨hread, ts, hts, hsplit⟩ := (parse_exact e).2.1 _ h
    exact ⟨e, ts, rfl, hread, hts, hsplit⟩

/-- An equation whose left side is a quantification without parentheses. -/
theorem parse_equation_of_binder :
    (Term.parse "∀ x : T, a = b = c").toOption.map Term.isGrammatical = some false := by
  decide +kernel

end Pinpoint.Surface
