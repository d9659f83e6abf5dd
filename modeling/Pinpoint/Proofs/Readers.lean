/-
The readers of the grammar, taken apart.

`r.Reads ts v rest` says that the reader `r` takes `v` off the tokens `ts` and
leaves `rest`.  For each way of building a reader there is one lemma that says
what it reads by what the readers read that it is built from, so that no other
proof has to look into a reader.
-/
import Pinpoint.Proofs.Grammar

namespace Pinpoint.Surface

variable {n : Nat} {α β : Type} {ts rest : List Token}

/-- A composed computation succeeds if both of its parts do. -/
theorem bind_eq_ok {ε : Type} {x : Except ε α} {f : α → Except ε β} {b : β} :
    (x >>= f) = .ok b ↔ ∃ a, x = .ok a ∧ f a = .ok b := by
  cases x with
  | error e =>
    constructor
    · intro h
      cases h
    · rintro ⟨_, ha, _⟩
      cases ha
  | ok a => exact ⟨fun h => ⟨a, rfl, h⟩, fun ⟨_, ha, h⟩ => Except.ok.inj ha ▸ h⟩

/-- The kind of the next token; nothing is left at the end of the text. -/
def nextKind : List Token → TokenKind
  | [] => .eof
  | t :: _ => t.kind

@[simp] theorem nextKind_cons (t : Token) (ts : List Token) : nextKind (t :: ts) = t.kind := rfl

/-- Whether a reader takes `v` off some tokens and leaves others. -/
def Reader.Reads (r : Reader n α) (ts : List Token) (v : α) (rest : List Token) : Prop :=
  ∃ h hshorter, r ts h = .ok ⟨v, rest, hshorter⟩

theorem Reader.Reads.length_lt {r : Reader n α} {v : α} (h : r.Reads ts v rest) :
    rest.length < ts.length := h.2.1

theorem expect_eq_ok {kind : TokenKind} {v : Span} {hs : rest.length < ts.length}
    (h : expect kind ts = .ok ⟨v, rest, hs⟩) :
    ∃ t, ts = t :: rest ∧ t.kind = kind ∧ v = t.span := by
  cases ts with
  | nil => cases h
  | cons t ts =>
    simp only [expect] at h
    split at h <;> rename_i hk
    · cases h
      exact ⟨t, rfl, hk, rfl⟩
    · cases h

theorem expect_cons {kind : TokenKind} {t : Token} (h : t.kind = kind) (ts : List Token) :
    expect kind (t :: ts) = .ok ⟨t.span, ts, Nat.lt_succ_self _⟩ := if_pos h

/-! ### Lists of operands -/

/-- Operands, each after a separator, up to a token that is no separator. -/
inductive ReadsFurther (separator : TokenKind) (item : Reader n α) :
    List Token → List α → List Token → Prop
  | done {ts : List Token} : nextKind ts ≠ separator → ReadsFurther separator item ts [] ts
  | step {t : Token} {ts mid rest : List Token} {v : α} {vs : List α} :
      t.kind = separator → item.Reads ts v mid → ReadsFurther separator item mid vs rest →
        ReadsFurther separator item (t :: ts) (v :: vs) rest

theorem readsFurther_of_further {separator : TokenKind} (hsep : separator ≠ .eof)
    {item : Reader n α} {h : ts.length ≤ n} {p : Repeated α ts}
    (hp : further separator item ts h = .ok p) :
    ReadsFurther separator item ts p.values p.rest := by
  fun_induction further separator item ts h with
  | case1 =>
    cases hp
    exact .done hsep.symm
  | case2 t ts h hk _ ih =>
    simp only [bind_eq_ok] at hp
    obtain ⟨first, hfirst, others, hothers, heq⟩ := hp
    cases heq
    exact .step hk ⟨_, _, hfirst⟩ (ih _ hothers)
  | case3 t ts h hk =>
    cases hp
    exact .done hk

theorem ReadsFurther.further {separator : TokenKind} {item : Reader n α} {vs : List α}
    (hr : ReadsFurther separator item ts vs rest) (h : ts.length ≤ n) :
    ∃ hle, further separator item ts h = .ok ⟨vs, rest, hle⟩ := by
  induction hr with
  | @done ts hne =>
    refine ⟨Nat.le_refl _, ?_⟩
    cases ts with
    | nil => simp only [Surface.further]
    | cons t ts =>
      rw [Surface.further]
      exact if_neg hne
  | @step t ts mid rest v vs hk hitem _ ih =>
    have hlt := hitem.length_lt
    obtain ⟨_, hshorter, hitem⟩ := hitem
    obtain ⟨hle, hrest⟩ := ih (by simp at h; omega)
    refine ⟨by simp; omega, ?_⟩
    simp only [Surface.further, if_pos hk, hitem]
    exact bind_eq_ok.mpr ⟨_, rfl, bind_eq_ok.mpr ⟨_, hrest, rfl⟩⟩

theorem separated_reads {separator : TokenKind} (hsep : separator ≠ .eof) {join : α → List α → α}
    {item : Reader n α} {v : α} :
    Reader.Reads (separated separator join item) ts v rest ↔
      ∃ first mid others, item.Reads ts first mid ∧ ReadsFurther separator item mid others rest ∧
        v = join first others := by
  constructor
  · rintro ⟨h, _, heq⟩
    simp only [separated, bind_eq_ok] at heq
    obtain ⟨first, hfirst, others, hothers, heq⟩ := heq
    cases heq
    exact ⟨_, _, _, ⟨_, _, hfirst⟩, readsFurther_of_further hsep hothers, rfl⟩
  · rintro ⟨first, mid, others, ⟨h, hshorter, hfirst⟩, hothers, rfl⟩
    obtain ⟨hle, hothers⟩ := hothers.further (by omega)
    refine ⟨h, by omega, ?_⟩
    exact bind_eq_ok.mpr ⟨_, hfirst, bind_eq_ok.mpr ⟨_, hothers, rfl⟩⟩

/-! ### Applications and equations -/

/-- Arguments up to a token that begins none; nothing follows a binder. -/
inductive ReadsArguments (atom : Reader n Term) : List Token → List Term → List Token → Prop
  | done {ts : List Token} : (nextKind ts).startsAtom = false → ReadsArguments atom ts [] ts
  | last {ts rest : List Token} {a : Term} :
      (nextKind ts).startsAtom → atom.Reads ts a rest → a.isBinder →
        ReadsArguments atom ts [a] rest
  | step {ts mid rest : List Token} {a : Term} {others : List Term} :
      (nextKind ts).startsAtom → atom.Reads ts a mid → a.isBinder = false →
        ReadsArguments atom mid others rest → ReadsArguments atom ts (a :: others) rest

theorem readsArguments_of_arguments {atom : Reader n Term} {h : ts.length ≤ n}
    {p : Repeated Term ts} (hp : arguments atom ts h = .ok p) :
    ReadsArguments atom ts p.values p.rest := by
  fun_induction arguments atom ts h with
  | case1 =>
    cases hp
    exact .done rfl
  | case2 t ts h hk _ ih =>
    simp only [bind_eq_ok] at hp
    obtain ⟨first, hfirst, hp⟩ := hp
    split at hp <;> rename_i hbinder
    · cases hp
      exact .last hk ⟨_, _, hfirst⟩ hbinder
    · obtain ⟨others, hothers, heq⟩ := bind_eq_ok.mp hp
      cases heq
      exact .step hk ⟨_, _, hfirst⟩ (by simpa using hbinder) (ih _ hothers)
  | case3 t ts h hk =>
    cases hp
    exact .done (by simpa using hk)

theorem ReadsArguments.arguments {atom : Reader n Term} {args : List Term}
    (hr : ReadsArguments atom ts args rest) (h : ts.length ≤ n) :
    ∃ hle, arguments atom ts h = .ok ⟨args, rest, hle⟩ := by
  induction hr with
  | @done ts hk =>
    refine ⟨Nat.le_refl _, ?_⟩
    cases ts with
    | nil => simp only [Surface.arguments]
    | cons t ts =>
      rw [Surface.arguments]
      exact if_neg (by simpa using hk)
  | @last ts rest a hk hatom hbinder =>
    obtain ⟨_, hshorter, hatom⟩ := hatom
    refine ⟨by omega, ?_⟩
    cases ts with
    | nil => exact absurd hshorter (Nat.not_lt_zero _)
    | cons t ts =>
      rw [Surface.arguments]
      exact (if_pos hk).trans (bind_eq_ok.mpr ⟨_, hatom, if_pos hbinder⟩)
  | @step ts mid rest a others hk hatom hbinder _ ih =>
    have hlt := hatom.length_lt
    obtain ⟨_, hshorter, hatom⟩ := hatom
    obtain ⟨hle, hothers⟩ := ih (by omega)
    refine ⟨by omega, ?_⟩
    cases ts with
    | nil => exact absurd hshorter (Nat.not_lt_zero _)
    | cons t ts =>
      rw [Surface.arguments]
      refine (if_pos hk).trans (bind_eq_ok.mpr ⟨_, hatom, (if_neg (by simp [hbinder])).trans ?_⟩)
      exact bind_eq_ok.mpr ⟨_, hothers, rfl⟩

theorem application_reads {atom : Reader n Term} {e : Term} :
    Reader.Reads (application atom) ts e rest ↔
      ∃ head mid args, atom.Reads ts head mid ∧ ReadsArguments atom mid args rest ∧
        e = head.apply args := by
  constructor
  · rintro ⟨h, _, heq⟩
    simp only [application, bind_eq_ok] at heq
    obtain ⟨head, hhead, args, hargs, heq⟩ := heq
    cases heq
    exact ⟨_, _, _, ⟨_, _, hhead⟩, readsArguments_of_arguments hargs, rfl⟩
  · rintro ⟨head, mid, args, ⟨h, hshorter, hhead⟩, hargs, rfl⟩
    obtain ⟨hle, hargs⟩ := hargs.arguments (by omega)
    refine ⟨h, by omega, ?_⟩
    exact bind_eq_ok.mpr ⟨_, hhead, bind_eq_ok.mpr ⟨_, hargs, rfl⟩⟩

/-- Two sums with an equation sign between them, or one with none after it. -/
theorem equation_reads {atom : Reader n Term} {e : Term} :
    Reader.Reads (equation atom) ts e rest ↔
      Reader.Reads (sum atom) ts e rest ∧ nextKind rest ≠ .eq ∨
      ∃ lhs t mid rhs, Reader.Reads (sum atom) ts lhs (t :: mid) ∧ t.kind = .eq ∧
        Reader.Reads (sum atom) mid rhs rest ∧ e = .join .eq lhs rhs := by
  constructor
  · rintro ⟨h, hshorter, heq⟩
    simp only [equation, bind_eq_ok] at heq
    obtain ⟨⟨v, mid, hs⟩, hlhs, heq⟩ := heq
    cases mid with
    | nil =>
      cases heq
      exact .inl ⟨⟨h, hshorter, hlhs⟩, by simp [nextKind]⟩
    | cons t mid =>
      simp only at heq
      split at heq <;> rename_i hk
      · obtain ⟨rhs, hrhs, heq⟩ := bind_eq_ok.mp heq
        cases heq
        exact .inr ⟨_, t, mid, _, ⟨h, hs, hlhs⟩, hk, ⟨_, _, hrhs⟩, rfl⟩
      · cases heq
        exact .inl ⟨⟨h, hshorter, hlhs⟩, hk⟩
  · rintro (⟨⟨h, hshorter, hsum⟩, hk⟩ | ⟨lhs, t, mid, rhs, ⟨h, hs, hlhs⟩, hk, ⟨_, hs', hrhs⟩, rfl⟩)
    · refine ⟨h, hshorter, bind_eq_ok.mpr ⟨_, hsum, ?_⟩⟩
      cases rest with
      | nil => rfl
      | cons t rest => exact if_neg hk
    · have : (t :: mid).length = mid.length + 1 := List.length_cons
      refine ⟨h, by omega, bind_eq_ok.mpr ⟨_, hlhs, ?_⟩⟩
      exact (if_pos hk).trans (bind_eq_ok.mpr ⟨_, hrhs, rfl⟩)

/-! ### Binders -/

/-- Bound names up to a token that is none. -/
inductive ReadsNames : List Token → List Binder → List Token → Prop
  | done {ts : List Token} : (nextKind ts).isName = false → ReadsNames ts [] ts
  | step {t : Token} {ts rest : List Token} {b : Binder} {bs : List Binder} :
      binder? t = some b → ReadsNames ts bs rest → ReadsNames (t :: ts) (b :: bs) rest

theorem isName_of_binder? {t : Token} {b : Binder} (h : binder? t = some b) :
    t.kind.isName = true := by
  unfold binder? at h
  split at h
  · simp_all [TokenKind.isName]
  · simp_all [TokenKind.isName]
  · cases h

theorem isName_eq_false_iff {t : Token} : t.kind.isName = false ↔ binder? t = none := by
  unfold binder? TokenKind.isName
  cases t.kind <;> simp

theorem moreNames_cons_of_some (ts : List Token) {t : Token} {b : Binder} (h : binder? t = some b) :
    (moreNames (t :: ts)).values = b :: (moreNames ts).values ∧
      (moreNames (t :: ts)).rest = (moreNames ts).rest := by
  rw [moreNames, h]
  exact ⟨rfl, rfl⟩

theorem moreNames_cons_of_none (ts : List Token) {t : Token} (h : binder? t = none) :
    (moreNames (t :: ts)).values = [] ∧ (moreNames (t :: ts)).rest = t :: ts := by
  rw [moreNames, h]
  exact ⟨rfl, rfl⟩

theorem readsNames_moreNames (ts : List Token) :
    ReadsNames ts (moreNames ts).values (moreNames ts).rest := by
  induction ts with
  | nil => exact .done rfl
  | cons t ts ih =>
    cases hb : binder? t with
    | none =>
      obtain ⟨hvalues, hrest⟩ := moreNames_cons_of_none ts hb
      rw [hvalues, hrest]
      exact .done (isName_eq_false_iff.mpr hb)
    | some b =>
      obtain ⟨hvalues, hrest⟩ := moreNames_cons_of_some ts hb
      rw [hvalues, hrest]
      exact .step hb ih

theorem ReadsNames.moreNames {bs : List Binder} (h : ReadsNames ts bs rest) :
    (moreNames ts).values = bs ∧ (moreNames ts).rest = rest := by
  induction h with
  | @done ts hname =>
    cases ts with
    | nil => exact ⟨rfl, rfl⟩
    | cons t ts => exact moreNames_cons_of_none ts (isName_eq_false_iff.mp hname)
  | step hb _ ih =>
    obtain ⟨hvalues, hrest⟩ := moreNames_cons_of_some _ hb
    rw [hvalues, hrest, ih.1, ih.2]
    exact ⟨rfl, rfl⟩

theorem readsNames_of_names {p : Parsed (Binder × List Binder) ts} (h : names ts = .ok p) :
    ReadsNames ts (p.value.1 :: p.value.2) p.rest := by
  cases ts with
  | nil => cases h
  | cons t ts =>
    rw [names] at h
    split at h <;> rename_i hb
    · cases h
      exact .step hb (readsNames_moreNames ts)
    · cases h

theorem ReadsNames.names {b : Binder} {bs : List Binder} (h : ReadsNames ts (b :: bs) rest) :
    ∃ hshorter, names ts = .ok ⟨(b, bs), rest, hshorter⟩ := by
  cases h with
  | @step t ts _ _ _ hb hrest =>
    obtain ⟨rfl, rfl⟩ := hrest.moreNames
    refine ⟨Nat.lt_succ_of_le (Surface.moreNames ts).noLonger, ?_⟩
    rw [Surface.names, hb]

/-- Names, a colon and their type. -/
theorem binderGroup_reads {type : Reader n Term} {bs : Binders} :
    Reader.Reads (binderGroup type) ts bs rest ↔
      ts.length ≤ n ∧ ∃ b others colon mid t, ReadsNames ts (b :: others) (colon :: mid) ∧
        colon.kind = .colon ∧ type.Reads mid t rest ∧ bs = .group t b others := by
  constructor
  · rintro ⟨h, _, heq⟩
    simp only [binderGroup, bind_eq_ok] at heq
    obtain ⟨⟨⟨b, others⟩, mid, _⟩, hnames, ⟨_, mid', _⟩, hexpect, type, htype, heq⟩ := heq
    obtain ⟨colon, rfl, hcolon, -⟩ := expect_eq_ok hexpect
    cases heq
    exact ⟨h, b, others, colon, mid', _, readsNames_of_names hnames, hcolon, ⟨_, _, htype⟩, rfl⟩
  · rintro ⟨h, b, others, colon, mid, t, hnames, hcolon, ⟨_, hs', htype⟩, rfl⟩
    obtain ⟨hs, hnames⟩ := hnames.names
    have : (colon :: mid).length = mid.length + 1 := List.length_cons
    refine ⟨h, by omega, ?_⟩
    refine bind_eq_ok.mpr ⟨_, hnames, bind_eq_ok.mpr ⟨_, expect_cons hcolon mid, ?_⟩⟩
    exact bind_eq_ok.mpr ⟨_, htype, rfl⟩

/-- Groups in parentheses; the parenthesis of the first one has been taken. -/
inductive ReadsGroups (functionType : Reader n Term) :
    List Token → Binders → List Token → Prop
  | last {ts rest : List Token} {close : Token} {bs : Binders} :
      Reader.Reads (binderGroup (equivalence functionType)) ts bs (close :: rest) →
        close.kind = .rparen → nextKind rest ≠ .lparen → ReadsGroups functionType ts bs rest
  | step {ts mid rest : List Token} {close opening : Token} {bs others : Binders} :
      Reader.Reads (binderGroup (equivalence functionType)) ts bs (close :: opening :: mid) →
        close.kind = .rparen → opening.kind = .lparen →
          ReadsGroups functionType mid others rest →
            ReadsGroups functionType ts (bs.append others) rest

theorem readsGroups_of_binderGroups {functionType : Reader n Term} {h : ts.length ≤ n}
    {p : Parsed Binders ts} (hp : binderGroups functionType ts h = .ok p) :
    ReadsGroups functionType ts p.value p.rest := by
  fun_induction binderGroups functionType ts h with
  | case1 ts h ih =>
    simp only [bind_eq_ok] at hp
    obtain ⟨⟨bs, mid, hs⟩, hgroup, ⟨_, mid', hs'⟩, hexpect, hp⟩ := hp
    obtain ⟨close, rfl, hclose, -⟩ := expect_eq_ok hexpect
    cases mid' with
    | nil =>
      cases hp
      exact .last ⟨_, _, hgroup⟩ hclose (by simp [nextKind])
    | cons t mid =>
      simp only at hp
      split at hp <;> rename_i hk
      · obtain ⟨others, hothers, heq⟩ := bind_eq_ok.mp hp
        cases heq
        exact .step ⟨_, _, hgroup⟩ hclose hk (ih ⟨bs, _, hs⟩ ⟨close.span, _, hs'⟩ t mid rfl hothers)
      · cases hp
        exact .last ⟨_, _, hgroup⟩ hclose hk

theorem ReadsGroups.binderGroups {functionType : Reader n Term} {bs : Binders}
    (hr : ReadsGroups functionType ts bs rest) (h : ts.length ≤ n) :
    ∃ hshorter, binderGroups functionType ts h = .ok ⟨bs, rest, hshorter⟩ := by
  induction hr with
  | @last ts rest close bs hgroup hclose hnext =>
    obtain ⟨_, hs, hgroup⟩ := hgroup
    have : (close :: rest).length = rest.length + 1 := List.length_cons
    refine ⟨by omega, ?_⟩
    rw [Surface.binderGroups]
    refine bind_eq_ok.mpr ⟨_, hgroup, bind_eq_ok.mpr ⟨_, expect_cons hclose _, ?_⟩⟩
    cases rest with
    | nil => rfl
    | cons t rest => exact if_neg hnext
  | @step ts mid rest close opening bs others hgroup hclose hopening _ ih =>
    obtain ⟨_, hs, hgroup⟩ := hgroup
    have : (close :: opening :: mid).length = (opening :: mid).length + 1 := List.length_cons
    have : (opening :: mid).length = mid.length + 1 := List.length_cons
    obtain ⟨hs', hothers⟩ := ih (by omega)
    refine ⟨by omega, ?_⟩
    rw [Surface.binderGroups]
    refine bind_eq_ok.mpr ⟨_, hgroup, bind_eq_ok.mpr ⟨_, expect_cons hclose _, ?_⟩⟩
    exact (if_pos hopening).trans (bind_eq_ok.mpr ⟨_, hothers, rfl⟩)

theorem binders_reads {functionType : Reader n Term} {bs : Binders} :
    Reader.Reads (binders functionType) ts bs rest ↔
      (∃ t mid, ts = t :: mid ∧ ts.length ≤ n ∧ t.kind = .lparen ∧
        ReadsGroups functionType mid bs rest) ∨
      nextKind ts ≠ .lparen ∧ Reader.Reads (binderGroup functionType) ts bs rest := by
  constructor
  · rintro ⟨h, hs, heq⟩
    cases ts with
    | nil => cases heq
    | cons t ts =>
      rw [binders] at heq
      split at heq <;> rename_i hk
      · obtain ⟨groups, hgroups, heq⟩ := bind_eq_ok.mp heq
        cases heq
        exact .inl ⟨t, ts, rfl, h, hk, readsGroups_of_binderGroups hgroups⟩
      · exact .inr ⟨hk, h, hs, heq⟩
  · rintro (⟨t, mid, rfl, h, hk, hgroups⟩ | ⟨hk, h, hs, heq⟩)
    · have : (t :: mid).length = mid.length + 1 := List.length_cons
      obtain ⟨hs, hgroups⟩ := hgroups.binderGroups (n := n) (by omega)
      refine ⟨h, by omega, ?_⟩
      rw [binders]
      exact (if_pos hk).trans (bind_eq_ok.mpr ⟨_, hgroups, rfl⟩)
    · refine ⟨h, hs, ?_⟩
      cases ts with
      | nil => exact absurd hs (Nat.not_lt_zero _)
      | cons t ts =>
        rw [binders]
        exact (if_neg hk).trans heq

/-- Binders, a sign and a body. -/
theorem scope_reads {functionType : Reader n Term} {separator : TokenKind} {s : Binders × Term} :
    Reader.Reads (scope functionType separator) ts s rest ↔
      ∃ sign mid, Reader.Reads (binders functionType) ts s.1 (sign :: mid) ∧
        sign.kind = separator ∧ Reader.Reads (equivalence functionType) mid s.2 rest := by
  obtain ⟨bs, body⟩ := s
  constructor
  · rintro ⟨h, _, heq⟩
    simp only [scope, bind_eq_ok] at heq
    obtain ⟨⟨bs, mid, _⟩, hbinders, ⟨_, mid', _⟩, hexpect, body, hbody, heq⟩ := heq
    obtain ⟨sign, rfl, hsign, -⟩ := expect_eq_ok hexpect
    cases heq
    exact ⟨sign, mid', ⟨h, _, hbinders⟩, hsign, ⟨_, _, hbody⟩⟩
  · rintro ⟨sign, mid, ⟨h, hs, hbinders⟩, hsign, ⟨_, hs', hbody⟩⟩
    have : (sign :: mid).length = mid.length + 1 := List.length_cons
    refine ⟨h, by omega, ?_⟩
    refine bind_eq_ok.mpr ⟨_, hbinders, bind_eq_ok.mpr ⟨_, expect_cons hsign mid, ?_⟩⟩
    exact bind_eq_ok.mpr ⟨_, hbody, rfl⟩

/-! ### Atoms -/

/-- What a token and those after it are read as, where an atom stands. -/
inductive ReadsAtom (functionType : Reader n Term) : List Token → Term → List Token → Prop
  | ident {t : Token} {ts : List Token} {s : String} : t.kind = .ident s →
      ReadsAtom functionType (t :: ts) (.ofIdent t.span s) ts
  | nat {t : Token} {ts : List Token} {k : UInt64} : t.kind = .nat k →
      ReadsAtom functionType (t :: ts) (.nat t.span k) ts
  | str {t : Token} {ts : List Token} {s : String} : t.kind = .str s →
      ReadsAtom functionType (t :: ts) (.str t.span s) ts
  | paren {t close : Token} {ts rest : List Token} {e : Term} : t.kind = .lparen →
      Reader.Reads (equivalence functionType) ts e (close :: rest) → close.kind = .rparen →
        ReadsAtom functionType (t :: ts) (.paren (t.span.merge close.span) e) rest
  | pi {t : Token} {ts rest : List Token} {s : Binders × Term} : t.kind = .all →
      Reader.Reads (scope functionType .comma) ts s rest →
        ReadsAtom functionType (t :: ts) (.pi (t.span.merge s.2.span) s.1 s.2) rest
  | lam {t : Token} {ts rest : List Token} {s : Binders × Term} : t.kind = .lam →
      Reader.Reads (scope functionType .fatArrow) ts s rest →
        ReadsAtom functionType (t :: ts) (.lam (t.span.merge s.2.span) s.1 s.2) rest

theorem atom_reads {functionType : Reader n Term} {e : Term} :
    Reader.Reads (atom functionType) ts e rest ↔
      ts.length ≤ n + 1 ∧ ReadsAtom functionType ts e rest := by
  constructor
  · rintro ⟨h, _, heq⟩
    refine ⟨h, ?_⟩
    cases ts with
    | nil => cases heq
    | cons t ts =>
      rw [atom] at heq
      -- The first token decides which form is read.
      cases hk : t.kind <;> simp only [hk] at heq
      case ident =>
        cases heq
        exact .ident hk
      case nat =>
        cases heq
        exact .nat hk
      case str =>
        cases heq
        exact .str hk
      case lparen =>
        simp only [bind_eq_ok] at heq
        obtain ⟨⟨inner, mid, _⟩, hinner, ⟨_, rest', _⟩, hexpect, heq⟩ := heq
        obtain ⟨close, rfl, hclose, rfl⟩ := expect_eq_ok hexpect
        cases heq
        exact .paren hk ⟨_, _, hinner⟩ hclose
      case all =>
        obtain ⟨s, hs, heq⟩ := bind_eq_ok.mp heq
        cases heq
        exact .pi hk ⟨_, _, hs⟩
      case lam =>
        obtain ⟨s, hs, heq⟩ := bind_eq_ok.mp heq
        cases heq
        exact .lam hk ⟨_, _, hs⟩
      all_goals cases heq
  · rintro ⟨h, hr⟩
    -- Each form is read back from the token that it begins with.
    cases hr with
    | @ident t _ _ hk | @nat t _ _ hk | @str t _ _ hk =>
      obtain ⟨kind, span⟩ := t
      subst hk
      exact ⟨h, by simp, rfl⟩
    | @paren t close ts rest e hk hinner hclose =>
      obtain ⟨kind, span⟩ := t
      subst hk
      obtain ⟨_, hs, hinner⟩ := hinner
      have : (close :: rest).length = rest.length + 1 := List.length_cons
      refine ⟨h, by simp; omega, ?_⟩
      exact bind_eq_ok.mpr ⟨_, hinner, bind_eq_ok.mpr ⟨_, expect_cons hclose _, rfl⟩⟩
    | @pi t ts rest s hk hs | @lam t ts rest s hk hs =>
      obtain ⟨kind, span⟩ := t
      subst hk
      obtain ⟨_, hshorter, hs⟩ := hs
      exact ⟨h, by simp; omega, bind_eq_ok.mpr ⟨_, hs, rfl⟩⟩

end Pinpoint.Surface
