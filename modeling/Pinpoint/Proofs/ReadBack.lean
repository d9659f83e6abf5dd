/-
Terms are read back from their tokens.

Whatever places in a text the tokens of a readable term have, the readers find
the term in them: each level stops where its part ends, because the next token
does not go on with it.

* `Reader.Restores` — a reader finds the terms of its precedence;
* `restores_functionTypeUpTo` — all levels do, by induction on the number of
  tokens, with a lemma for each level;
* `ofTokens_tokens` — so does the reader of whole texts.
-/
import Pinpoint.Proofs.Readers

namespace Pinpoint.Surface

variable {n : Nat} {us rest : List Token}

@[simp] theorem kinds_append (ts us : List Token) : kinds (ts ++ us) = kinds ts ++ kinds us :=
  List.map_append

@[simp] theorem kinds_cons (t : Token) (ts : List Token) : kinds (t :: ts) = t.kind :: kinds ts :=
  rfl

theorem exists_of_kinds_eq_append {ks ks' : List TokenKind} (h : kinds us = ks ++ ks') :
    ∃ vs ws, us = vs ++ ws ∧ kinds vs = ks ∧ kinds ws = ks' :=
  List.map_eq_append_iff.mp h

theorem exists_of_kinds_eq_cons {k : TokenKind} {ks : List TokenKind} (h : kinds us = k :: ks) :
    ∃ t vs, us = t :: vs ∧ t.kind = k ∧ kinds vs = ks :=
  List.map_eq_cons_iff.mp h

/-- Whether a reader finds all readable terms of a precedence in their tokens,
where something follows that does not go on with them. -/
def Reader.Restores (prec : Nat) (r : Reader n Term) : Prop :=
  ∀ {us rest : List Token} {e : Term}, kinds us = e.tokens → e.fits Term.standsBefore prec →
    e.EndsAt prec (nextKind rest) → (us ++ rest).length ≤ n →
      ∃ e', r.Reads (us ++ rest) e' rest ∧ e'.bare = e.bare

/-! ### Operators that group to the left -/

theorem Operator.leftGrade_eq {op : Operator} (hop : op ≠ .eq) : op.leftGrade = op.precedence := by
  cases op <;> first | rfl | exact absurd rfl hop

theorem Operator.rightPrecedence_eq (op : Operator) : op.rightPrecedence = op.precedence + 1 := by
  cases op <;> rfl

theorem Operator.token_ne_eof (op : Operator) : op.token ≠ .eof := by
  cases op <;> simp [Operator.token]

/-- An operation, read as the operands of a chain, of which more may follow. -/
theorem restores_chain {op : Operator} (hop : op ≠ .eq) {item : Reader n Term}
    (hitem : item.Restores op.rightPrecedence) {us rest rest' : List Token} {others' : List Term}
    (e : Term) (htokens : kinds us = e.tokens) (hfits : e.fits Term.standsBefore op.precedence)
    (hends : e.EndsAt (op.precedence + 1) (nextKind rest))
    (hothers : ReadsFurther op.token item rest others' rest') (hlen : (us ++ rest).length ≤ n) :
    ∃ first mid others, item.Reads (us ++ rest) first mid ∧
      ReadsFurther op.token item mid (others ++ others') rest' ∧
      (joinLeft (Term.join op) first others).bare = e.bare := by
  have hright := Operator.rightPrecedence_eq op
  rcases Term.fits_succ_or_eq_binary hfits with hfits | ⟨s, lhs, rhs, rfl⟩
  · obtain ⟨e', hreads, hbare⟩ := hitem htokens (hright ▸ hfits) (hright ▸ hends) hlen
    exact ⟨e', rest, [], hreads, hothers, hbare⟩
  · obtain ⟨vs, ws, rfl, hvs, hws⟩ := exists_of_kinds_eq_append htokens
    obtain ⟨t, ws, rfl, ht, hws⟩ := exists_of_kinds_eq_cons hws
    simp only [Term.fits, Bool.and_eq_true] at hfits
    obtain ⟨⟨⟨-, hlhs⟩, hstands⟩, hrhs⟩ := hfits
    have hrhsEnds : rhs.EndsAt op.rightPrecedence (nextKind rest) := fun g hg =>
      (Bool.and_eq_true _ _ ▸ hends g hg).2
    obtain ⟨r', hr', hbare⟩ := hitem hws hrhs hrhsEnds (by simp at hlen ⊢; omega)
    have hlhsEnds : lhs.EndsAt (op.precedence + 1) (nextKind (t :: (ws ++ rest))) := by
      intro g hg
      rw [nextKind_cons, ht, grade?_token] at hg
      exact Option.some.inj hg ▸ hstands
    have hfurther := ReadsFurther.step ht hr' hothers
    obtain ⟨first, mid, others, hfirst, hrest, hjoin⟩ := restores_chain hop hitem lhs hvs
      (Operator.leftGrade_eq hop ▸ hlhs) hlhsEnds hfurther (by simpa using hlen)
    refine ⟨first, mid, others ++ [r'], by simpa using hfirst, by simpa using hrest, ?_⟩
    rw [joinLeft, List.foldl_append]
    show (Term.join op (joinLeft (Term.join op) first others) r').bare = _
    rw [Term.join, Term.bare, hjoin, hbare, Term.bare]
termination_by sizeOf e

theorem restores_separated (op : Operator) (hop : op ≠ .eq) {prec : Nat} {item : Reader n Term}
    (hitem : item.Restores op.rightPrecedence)
    (hprec : ∀ {e : Term}, e.fits Term.standsBefore prec → e.fits Term.standsBefore op.precedence)
    (hle : prec ≤ op.precedence) :
    Reader.Restores prec (separated op.token (joinLeft (Term.join op)) item) := by
  intro us rest e htokens hfits hends hlen
  have hnext : nextKind rest ≠ op.token := by
    intro heq
    have hop' : op.precedence ≠ 50 := by cases op <;> first | decide | exact absurd rfl hop
    have := hends.lt (heq ▸ grade?_token op)
    omega
  obtain ⟨first, mid, others, hfirst, hothers, hbare⟩ := restores_chain hop hitem e htokens
    (hprec hfits) (hends.mono (by omega)) (.done hnext) hlen
  rw [List.append_nil] at hothers
  exact ⟨_, (separated_reads (Operator.token_ne_eof op)).mpr ⟨_, _, _, hfirst, hothers, rfl⟩, hbare⟩

/-! ### Equations and function types -/

theorem restores_equation {atom : Reader n Term}
    (hsum : Reader.Restores Operator.eq.leftPrecedence (sum atom)) :
    Reader.Restores (Precedence.arrow + 1) (equation atom) := by
  intro us rest e htokens hfits hends hlen
  have hfits' : e.fits Term.standsBefore Operator.eq.precedence := by
    refine Term.fits_of_imp hfits fun hle => ?_
    have := e.precedence_cases
    simp only [IsGrade, Precedence.arrow, Operator.precedence] at this hle ⊢
    omega
  rcases Term.fits_succ_or_eq_binary hfits' with hfits' | ⟨s, lhs, rhs, rfl⟩
  · obtain ⟨e', hreads, hbare⟩ := hsum htokens hfits' (hends.mono (by decide)) hlen
    refine ⟨e', equation_reads.mpr (.inl ⟨hreads, fun heq => ?_⟩), hbare⟩
    have hlt : Operator.eq.precedence < e.precedence := by
      have := Term.le_precedence hfits'
      simp only [Operator.precedence] at this ⊢
      omega
    exact Term.not_endsBefore (by decide) hlt (hends _ (heq ▸ rfl))
  · obtain ⟨vs, ws, rfl, hvs, hws⟩ := exists_of_kinds_eq_append htokens
    obtain ⟨t, ws, rfl, ht, hws⟩ := exists_of_kinds_eq_cons hws
    simp only [Term.fits, Bool.and_eq_true] at hfits
    obtain ⟨⟨⟨-, hlhs⟩, hstands⟩, hrhs⟩ := hfits
    have hlhsEnds : lhs.EndsAt Operator.eq.leftPrecedence (nextKind (t :: (ws ++ rest))) := by
      intro g hg
      rw [nextKind_cons, ht, grade?_token] at hg
      exact Option.some.inj hg ▸ hstands
    have hrhsEnds : rhs.EndsAt Operator.eq.rightPrecedence (nextKind rest) := fun g hg =>
      (Bool.and_eq_true _ _ ▸ hends g hg).2
    obtain ⟨l', hl', hlbare⟩ := hsum hvs hlhs hlhsEnds (by simp at hlen ⊢; omega)
    obtain ⟨r', hr', hrbare⟩ := hsum hws hrhs hrhsEnds (by simp at hlen ⊢; omega)
    refine ⟨.join .eq l' r', equation_reads.mpr (.inr ⟨l', t, _, r', ?_, ht, hr', rfl⟩), ?_⟩
    · simpa using hl'
    · rw [Term.join, Term.bare, hlbare, hrbare, Term.bare]

/-- A function type, read as the parts of a chain. -/
theorem restores_arrows {item : Reader n Term} (hitem : item.Restores (Precedence.arrow + 1))
    {us rest : List Token} (e : Term) (htokens : kinds us = e.tokens)
    (hfits : e.fits Term.standsBefore Precedence.arrow)
    (hends : e.EndsAt Precedence.arrow (nextKind rest)) (hlen : (us ++ rest).length ≤ n) :
    ∃ first mid others, item.Reads (us ++ rest) first mid ∧
      ReadsFurther .arrow item mid others rest ∧
      (joinRight Term.joinArrow first others).bare = e.bare := by
  by_cases harrow : ∃ s dom cod, e = .arrow s dom cod
  · obtain ⟨s, dom, cod, rfl⟩ := harrow
    obtain ⟨vs, ws, rfl, hvs, hws⟩ := exists_of_kinds_eq_append htokens
    obtain ⟨t, ws, rfl, ht, hws⟩ := exists_of_kinds_eq_cons hws
    simp only [Term.fits, Bool.and_eq_true] at hfits
    obtain ⟨⟨⟨-, hdom⟩, hstands⟩, hcod⟩ := hfits
    have hdomEnds : dom.EndsAt (Precedence.arrow + 1) (nextKind (t :: (ws ++ rest))) := by
      intro g hg
      rw [nextKind_cons, ht] at hg
      exact Option.some.inj hg ▸ hstands
    have hcodEnds : cod.EndsAt Precedence.arrow (nextKind rest) := fun g hg =>
      (Bool.and_eq_true _ _ ▸ hends g hg).2
    obtain ⟨d', hd', hdbare⟩ := hitem hvs hdom hdomEnds (by simp at hlen ⊢; omega)
    obtain ⟨first, mid, others, hfirst, hothers, hjoin⟩ :=
      restores_arrows hitem cod hws hcod hcodEnds (by simp at hlen ⊢; omega)
    refine ⟨d', _, first :: others, by simpa using hd', .step ht hfirst hothers, ?_⟩
    rw [joinRight, Term.joinArrow, Term.bare, hdbare, hjoin, Term.bare]
  · have hne : e.precedence ≠ Precedence.arrow := fun heq => harrow (Term.precedence_eq_arrow heq)
    have hfits' : e.fits Term.standsBefore (Precedence.arrow + 1) :=
      Term.fits_of_imp hfits (by omega)
    obtain ⟨e', hreads, hbare⟩ := hitem htokens hfits' (hends.mono (Nat.le_succ _)) hlen
    refine ⟨e', rest, [], hreads, .done fun heq => ?_, hbare⟩
    have hlt : Precedence.arrow < e.precedence := by
      have := Term.le_precedence hfits'
      simp only [Precedence.arrow] at this ⊢
      omega
    exact Term.not_endsBefore (Nat.le_refl _) hlt (hends _ (heq ▸ rfl))
termination_by sizeOf e

/-! ### Applications -/

@[simp] theorem Term.isBinder_bare (e : Term) : e.bare.isBinder = e.isBinder := by
  cases e <;> rfl

theorem isBinder_eq_of_bare_eq {e e' : Term} (h : e'.bare = e.bare) : e'.isBinder = e.isBinder := by
  rw [← e'.isBinder_bare, h, e.isBinder_bare]

/-- A binder goes on with an argument. -/
theorem isBinder_eq_false_of_standsBefore {e : Term} (h : e.standsBefore Precedence.app) :
    e.isBinder = false := by
  cases e with
  | lam | pi => exact absurd (Term.eq_of_endsBefore_of_endsInBinder _ rfl h) (by decide)
  | _ => rfl

theorem startsAtom_nextKind (vs : List Token) {e : Term} (h : kinds us = e.tokens) :
    (nextKind (us ++ vs)).startsAtom := by
  obtain ⟨k, ks, heq, hk⟩ := e.exists_tokens_eq_cons
  obtain ⟨t, us, rfl, rfl, -⟩ := exists_of_kinds_eq_cons (h.trans heq)
  exact hk

theorem Args.startsAtom_nextKind (vs : List Token) (args : Args) (h : kinds us = args.tokens) :
    (nextKind (us ++ vs)).startsAtom := by
  cases args with
  | one a => exact Surface.startsAtom_nextKind vs (e := a) h
  | cons a others =>
    obtain ⟨ws, xs, rfl, hws, -⟩ := exists_of_kinds_eq_append h
    rw [List.append_assoc]
    exact Surface.startsAtom_nextKind _ hws

theorem restores_arguments {atom : Reader n Term} (hatom : atom.Restores Precedence.arg)
    {us rest : List Token} (hnext : (nextKind rest).startsAtom = false) (args : Args)
    (htokens : kinds us = args.tokens) (hfit : args.fit Term.standsBefore)
    (hends : ∀ g, (nextKind rest).grade? = some g → args.endsBefore g)
    (hlen : (us ++ rest).length ≤ n) :
    ∃ a others, ReadsArguments atom (us ++ rest) (a :: others) rest ∧
      (Args.ofList a others).bare = args.bare := by
  cases args with
  | one a =>
    have hstart := startsAtom_nextKind rest (e := a) htokens
    obtain ⟨a', ha', hbare⟩ := hatom (e := a) htokens hfit hends hlen
    refine ⟨a', [], ?_, congrArg Args.one hbare⟩
    cases hbinder : a'.isBinder with
    | true => exact .last hstart ha' hbinder
    | false => exact .step hstart ha' hbinder (.done hnext)
  | cons a others =>
    obtain ⟨vs, ws, rfl, hvs, hws⟩ := exists_of_kinds_eq_append htokens
    simp only [Args.fit, Bool.and_eq_true] at hfit
    obtain ⟨⟨ha, hstands⟩, hothers⟩ := hfit
    have hnext' := others.startsAtom_nextKind rest hws
    have haEnds : a.EndsAt Precedence.arg (nextKind (ws ++ rest)) := by
      intro g hg
      rw [grade?_of_startsAtom hnext'] at hg
      exact Option.some.inj hg ▸ hstands
    obtain ⟨a', ha', hbare⟩ := hatom hvs ha haEnds (by simpa using hlen)
    obtain ⟨b, others', hothers', hbare'⟩ := restores_arguments hatom hnext others hws hothers hends
      (by simp at hlen ⊢; omega)
    have hbinder := (isBinder_eq_of_bare_eq hbare).trans (isBinder_eq_false_of_standsBefore hstands)
    rw [List.append_assoc]
    refine ⟨a', b :: others', .step (startsAtom_nextKind _ hvs) ha' hbinder hothers', ?_⟩
    rw [Args.ofList, Args.bare, hbare, hbare', Args.bare]
termination_by sizeOf args

theorem restores_application {atom : Reader n Term} (hatom : atom.Restores Precedence.arg) :
    Reader.Restores Operator.mul.rightPrecedence (application atom) := by
  intro us rest e htokens hfits hends hlen
  have hnext : (nextKind rest).startsAtom = false := by
    cases hstarts : (nextKind rest).startsAtom with
    | false => rfl
    | true => exact absurd (hends.lt (grade?_of_startsAtom hstarts)) (by decide)
  by_cases happ : e.precedence = Precedence.app
  · obtain ⟨s, head, args, rfl⟩ := Term.precedence_eq_app happ
    obtain ⟨vs, ws, rfl, hvs, hws⟩ := exists_of_kinds_eq_append htokens
    simp only [Term.fits, Bool.and_eq_true] at hfits
    obtain ⟨⟨⟨-, hhead⟩, hstands⟩, hargs⟩ := hfits
    have hheadEnds : head.EndsAt Precedence.arg (nextKind (ws ++ rest)) := by
      intro g hg
      rw [grade?_of_startsAtom (args.startsAtom_nextKind rest hws)] at hg
      exact Option.some.inj hg ▸ hstands
    have hargsEnd : ∀ g, (nextKind rest).grade? = some g → args.endsBefore g := fun g hg =>
      (Bool.and_eq_true _ _ ▸ hends g hg).2
    obtain ⟨h', hh', hbare⟩ := hatom hvs hhead hheadEnds (by simpa using hlen)
    obtain ⟨a, others, hothers, hbare'⟩ := restores_arguments hatom hnext args hws hargs hargsEnd
      (by simp at hlen ⊢; omega)
    rw [List.append_assoc]
    refine ⟨_, application_reads.mpr ⟨h', _, a :: others, hh', hothers, rfl⟩, ?_⟩
    rw [Term.apply, Term.bare, hbare, hbare', Term.bare]
  · have hfits' : e.fits Term.standsBefore Precedence.arg := by
      refine Term.fits_of_imp hfits fun hle => ?_
      have := e.precedence_cases
      simp only [IsGrade, Precedence.app, Precedence.arg, Operator.rightPrecedence]
        at this happ hle ⊢
      omega
    obtain ⟨e', he', hbare⟩ := hatom htokens hfits' (hends.mono (by decide)) hlen
    exact ⟨e', application_reads.mpr ⟨e', rest, [], he', .done hnext, rfl⟩, hbare⟩

/-! ### Binders and atoms -/

theorem binder?_of_kind_eq {t : Token} {b : Binder} (h : t.kind = b.token) :
    binder? t = some ⟨t.span, b.name⟩ := by
  unfold Binder.token at h
  split at h <;> rename_i hb
  · rw [binder?, h, hb]
  · rw [binder?, h]

/-- One group, read from the tokens that are written for a binder. -/
theorem reads_binderGroup (rest : List Token) {type : Reader n Term}
    (htype : type.Restores Precedence.binder)
    {b : Binder} {t : Term} (hfits : t.fits Term.standsBefore Precedence.binder)
    (hus : kinds us = b.token :: .colon :: t.tokens) (hnext : (nextKind rest).grade? = none)
    (hlen : (us ++ rest).length ≤ n) :
    ∃ b' t', (binderGroup type).Reads (us ++ rest) (.one b' t') rest ∧ b'.name = b.name ∧
      t'.bare = t.bare := by
  obtain ⟨x, us, rfl, hx, hus⟩ := exists_of_kinds_eq_cons hus
  obtain ⟨colon, us, rfl, hcolon, hus⟩ := exists_of_kinds_eq_cons hus
  obtain ⟨t', ht', hbare⟩ := htype hus hfits (Term.endsAt_of_grade?_eq_none hnext)
    (by simp at hlen ⊢; omega)
  have hnames : ReadsNames (x :: colon :: us ++ rest) [⟨x.span, b.name⟩] (colon :: us ++ rest) :=
    .step (binder?_of_kind_eq hx) (.done (by
      show colon.kind.isName = false
      rw [hcolon]
      rfl))
  exact ⟨⟨x.span, b.name⟩, t', binderGroup_reads.mpr ⟨hlen, _, _, colon, _, t', hnames, hcolon,
    ht', rfl⟩, rfl, hbare⟩

theorem reads_groups (rest : List Token) {functionType : Reader n Term}
    (hterm : Reader.Restores Precedence.binder (equivalence functionType)) {us : List Token}
    (bs : Binders) (hfit : bs.fit Term.standsBefore) (hus : .lparen :: kinds us = bs.tokens)
    (hnext : nextKind rest ≠ .lparen) (hlen : (us ++ rest).length ≤ n) :
    ∃ bs', ReadsGroups functionType (us ++ rest) bs' rest ∧ bs'.bare = bs.bare := by
  cases bs with
  | one b t =>
    simp only [Binders.fit, Bool.and_eq_true] at hfit
    have hsplit : kinds us = (b.token :: .colon :: t.tokens) ++ [.rparen] := (List.cons.inj hus).2
    obtain ⟨vs, ws, rfl, hvs, hws⟩ := exists_of_kinds_eq_append hsplit
    obtain ⟨close, ws, rfl, hclose, hws⟩ := exists_of_kinds_eq_cons hws
    obtain rfl := List.map_eq_nil_iff.mp hws
    obtain ⟨b', t', hreads, hname, hbare⟩ := reads_binderGroup (close :: rest) hterm hfit.2
      hvs (by rw [nextKind_cons, hclose]; rfl) (by simpa using hlen)
    refine ⟨.one b' t', by simpa using .last hreads hclose hnext, ?_⟩
    rw [Binders.bare, hname, hbare, Binders.bare]
  | cons b t others =>
    simp only [Binders.fit, Bool.and_eq_true] at hfit
    have hsplit : kinds us = (b.token :: .colon :: t.tokens) ++ .rparen :: others.tokens :=
      (List.cons.inj hus).2
    obtain ⟨vs, ws, rfl, hvs, hws⟩ := exists_of_kinds_eq_append hsplit
    obtain ⟨close, ws, rfl, hclose, hws⟩ := exists_of_kinds_eq_cons hws
    obtain ⟨ks, hks⟩ : ∃ ks, others.tokens = .lparen :: ks := by
      cases others <;> exact ⟨_, rfl⟩
    obtain ⟨opening, ws, rfl, hopening, hws⟩ := exists_of_kinds_eq_cons (hws.trans hks)
    obtain ⟨b', t', hreads, hname, hbare⟩ := reads_binderGroup
      (close :: opening :: (ws ++ rest)) hterm hfit.1.2 hvs
      (by rw [nextKind_cons, hclose]; rfl) (by simpa using hlen)
    obtain ⟨others', hothers, hbare'⟩ := reads_groups rest hterm others hfit.2 (hws ▸ hks.symm)
      hnext (by simp at hlen ⊢; omega)
    refine ⟨(Binders.one b' t').append others', by simpa using .step hreads hclose hopening hothers,
      ?_⟩
    rw [Binders.append, Binders.bare, hname, hbare, hbare', Binders.bare]
termination_by sizeOf bs

theorem restores_scope {functionType : Reader n Term}
    (hterm : Reader.Restores Precedence.binder (equivalence functionType)) (separator : TokenKind)
    (hsep : separator ≠ .lparen) {us rest : List Token} {bs : Binders} {body : Term}
    (hus : kinds us = bs.tokens ++ separator :: body.tokens) (hbs : bs.fit Term.standsBefore)
    (hbody : body.fits Term.standsBefore Precedence.binder)
    (hends : body.EndsAt Precedence.binder (nextKind rest)) (hlen : (us ++ rest).length ≤ n) :
    ∃ s, Reader.Reads (scope functionType separator) (us ++ rest) s rest ∧ s.1.bare = bs.bare ∧
      s.2.bare = body.bare := by
  obtain ⟨vs, ws, rfl, hvs, hws⟩ := exists_of_kinds_eq_append hus
  obtain ⟨sign, ws, rfl, hsign, hws⟩ := exists_of_kinds_eq_cons hws
  obtain ⟨ks, hks⟩ : ∃ ks, bs.tokens = .lparen :: ks := by cases bs <;> exact ⟨_, rfl⟩
  obtain ⟨opening, vs, rfl, hopening, hvs⟩ := exists_of_kinds_eq_cons (hvs.trans hks)
  obtain ⟨bs', hbs', hbare⟩ := reads_groups (sign :: (ws ++ rest)) hterm bs hbs
    (hvs ▸ hks.symm) (by rw [nextKind_cons, hsign]; exact hsep) (by simp at hlen ⊢; omega)
  obtain ⟨body', hbody', hbare'⟩ := hterm hws hbody hends (by simp at hlen ⊢; omega)
  refine ⟨(bs', body'), scope_reads.mpr ⟨sign, _, binders_reads.mpr (.inl ⟨opening, _, ?_, ?_,
    hopening, hbs'⟩), hsign, hbody'⟩, hbare, hbare'⟩
  · simp
  · simpa using hlen

theorem restores_atom {functionType : Reader n Term}
    (hterm : Reader.Restores Precedence.binder (equivalence functionType)) :
    Reader.Restores Precedence.arg (atom functionType) := by
  intro us rest e htokens hfits hends hlen
  cases e with
  | ident s name =>
    obtain ⟨t, us, rfl, ht, hus⟩ := exists_of_kinds_eq_cons htokens
    obtain rfl := List.map_eq_nil_iff.mp hus
    refine ⟨_, atom_reads.mpr ⟨hlen, .ident ht⟩, ?_⟩
    simp only [Term.fits, Bool.and_eq_true, bne_iff_ne] at hfits
    rw [Term.ofIdent, if_neg hfits.1.2, if_neg hfits.2]
    rfl
  | prop s | type s =>
    obtain ⟨t, us, rfl, ht, hus⟩ := exists_of_kinds_eq_cons htokens
    obtain rfl := List.map_eq_nil_iff.mp hus
    exact ⟨_, atom_reads.mpr ⟨hlen, .ident ht⟩, rfl⟩
  | nat s k =>
    obtain ⟨t, us, rfl, ht, hus⟩ := exists_of_kinds_eq_cons htokens
    obtain rfl := List.map_eq_nil_iff.mp hus
    exact ⟨_, atom_reads.mpr ⟨hlen, .nat ht⟩, rfl⟩
  | str s text =>
    obtain ⟨t, us, rfl, ht, hus⟩ := exists_of_kinds_eq_cons htokens
    obtain rfl := List.map_eq_nil_iff.mp hus
    exact ⟨_, atom_reads.mpr ⟨hlen, .str ht⟩, rfl⟩
  | paren s inner =>
    obtain ⟨t, us, rfl, ht, hus⟩ := exists_of_kinds_eq_cons htokens
    -- The inner term ends at the closing parenthesis.
    obtain ⟨vs, ws, rfl, hvs, hws⟩ := exists_of_kinds_eq_append hus
    obtain ⟨close, ws, rfl, hclose, hws⟩ := exists_of_kinds_eq_cons hws
    obtain rfl := List.map_eq_nil_iff.mp hws
    have hlen' : (vs ++ close :: rest).length ≤ n := by simp at hlen ⊢; omega
    obtain ⟨e', he', hbare⟩ := hterm hvs hfits
      (Term.endsAt_of_grade?_eq_none (by rw [nextKind_cons, hclose]; rfl)) hlen'
    refine ⟨.paren (t.span.merge close.span) e', atom_reads.mpr ⟨hlen, ?_⟩,
      congrArg (Term.paren .nowhere) hbare⟩
    simpa using ReadsAtom.paren ht he' hclose
  | lam s bs body =>
    obtain ⟨t, us, rfl, ht, hus⟩ := exists_of_kinds_eq_cons htokens
    simp only [Term.fits, Bool.and_eq_true] at hfits
    obtain ⟨s', hs', hbs, hbody⟩ := restores_scope hterm .fatArrow (by decide) hus
      hfits.1 hfits.2
      (fun g hg => (Bool.and_eq_true _ _ ▸ hends g hg).2) (by simp at hlen ⊢; omega)
    refine ⟨_, atom_reads.mpr ⟨hlen, .lam ht hs'⟩, ?_⟩
    rw [Term.bare, hbs, hbody, Term.bare]
  | pi s bs body =>
    obtain ⟨t, us, rfl, ht, hus⟩ := exists_of_kinds_eq_cons htokens
    simp only [Term.fits, Bool.and_eq_true] at hfits
    obtain ⟨s', hs', hbs, hbody⟩ := restores_scope hterm .comma (by decide) hus
      hfits.1 hfits.2
      (fun g hg => (Bool.and_eq_true _ _ ▸ hends g hg).2) (by simp at hlen ⊢; omega)
    refine ⟨_, atom_reads.mpr ⟨hlen, .pi ht hs'⟩, ?_⟩
    rw [Term.bare, hbs, hbody, Term.bare]
  | app | arrow => simp [Term.fits, Precedence.arg, Precedence.app, Precedence.arrow] at hfits
  | binary _ op => cases op <;> simp [Term.fits, Precedence.arg, Operator.precedence] at hfits

/-! ### All levels -/

theorem restores_functionType {atom : Reader n Term} (hatom : atom.Restores Precedence.arg) :
    Reader.Restores Operator.iff.rightPrecedence (functionType atom) := by
  have hproduct : Reader.Restores Operator.add.rightPrecedence (product atom) :=
    restores_separated .mul (by decide) (restores_application hatom)
      (fun {e} h => Term.fits_of_imp h fun hle => by
        have := e.precedence_cases
        simp only [IsGrade, Operator.rightPrecedence, Operator.precedence] at this hle ⊢
        omega) (by decide)
  have hsum : Reader.Restores Operator.eq.leftPrecedence (sum atom) :=
    restores_separated .add (by decide) hproduct
      (fun {e} h => Term.fits_of_imp h fun hle => by
        have := e.precedence_cases
        simp only [IsGrade, Operator.leftPrecedence, Operator.precedence] at this hle ⊢
        omega) (by decide)
  intro us rest e htokens hfits hends hlen
  have hfits' : e.fits Term.standsBefore Precedence.arrow := by
    refine Term.fits_of_imp hfits fun hle => ?_
    have := e.precedence_cases
    simp only [IsGrade, Precedence.arrow, Operator.rightPrecedence] at this hle ⊢
    omega
  obtain ⟨first, mid, others, hfirst, hothers, hbare⟩ := restores_arrows (restores_equation hsum) e
    htokens hfits' (hends.mono (by decide)) hlen
  have hsep : TokenKind.arrow ≠ .eof := by decide
  exact ⟨_, (separated_reads hsep).mpr ⟨_, _, _, hfirst, hothers, rfl⟩, hbare⟩

theorem restores_equivalence {functionType : Reader n Term}
    (h : functionType.Restores Operator.iff.rightPrecedence) :
    Reader.Restores Precedence.binder (equivalence functionType) :=
  restores_separated .iff (by decide) h
    (fun {e} h => Term.fits_of_imp h fun _ => by
      have := e.precedence_cases
      simp only [IsGrade, Operator.precedence] at this ⊢
      omega) (by decide)

theorem restores_functionTypeUpTo (n : Nat) :
    Reader.Restores Operator.iff.rightPrecedence (functionTypeUpTo n) := by
  induction n with
  | zero =>
    intro us rest e htokens _ _ hlen
    obtain ⟨k, ks, heq, -⟩ := e.exists_tokens_eq_cons
    obtain ⟨t, us, rfl, -, -⟩ := exists_of_kinds_eq_cons (htokens.trans heq)
    exact absurd hlen (by simp)
  | succ n ih => exact restores_functionType (restores_atom (restores_equivalence ih))

/-- A readable term is found in its tokens, whatever places in a text they
have. -/
theorem ofTokens_tokens {ts : List Token} {e : Term} (hread : e.isReadable)
    (hts : kinds ts = e.tokens ++ [.eof]) : ∃ e', Term.ofTokens ts = .ok e' ∧ e'.bare = e.bare := by
  obtain ⟨us, rest, rfl, hus, hrest⟩ := exists_of_kinds_eq_append hts
  obtain ⟨last, rest, rfl, hlast, hrest⟩ := exists_of_kinds_eq_cons hrest
  have hends : e.EndsAt Precedence.binder (nextKind (last :: rest)) :=
    Term.endsAt_of_grade?_eq_none (by rw [nextKind_cons, hlast]; rfl)
  obtain ⟨e', ⟨_, _, hreads⟩, hbare⟩ := restores_equivalence (restores_functionTypeUpTo _) hus hread
    hends (Nat.le_refl _)
  refine ⟨e', bind_eq_ok.mpr ⟨_, hreads, ?_⟩, hbare⟩
  rw [finish, if_pos hlast]
  rfl

end Pinpoint.Surface
