/-
Conversion: the equality of terms that reduction generates.

`Par` contracts any number of applied functions, definitions and constants
with a value at once.  Every such step can be completed to one that contracts
all of them, `Par.complete`, so that reduction is confluent, and conversion is
to have a common reduct.

* `Par.subst` — steps go along substitutions;
* `Converts.equivalence`, and the congruences of `Converts`;
* `Converts.agree` — terms whose head no step can change are convertible only
  part by part; in particular quantified types are convertible only if their
  domains and their bodies are;
* `Converts.mono` — more constants with values convert more terms.
-/
import Mathlib.Logic.Relation
import Pinpoint.Proofs.Terms

namespace Pinpoint

/-- The values of constants at levels; they mention no variables. -/
structure Definitions where
  value : Name → List Level → Option Term
  ground : ∀ {n ls v}, value n ls = some v → v.Ground

/-- One step that contracts any number of redexes. -/
inductive Par (D : Definitions) : Term → Term → Prop
  | bvar (i : Nat) : Par D (.bvar i) (.bvar i)
  | fvar (x : FVarId) : Par D (.fvar x) (.fvar x)
  | sort (l : Level) : Par D (.sort l) (.sort l)
  | const (n : Name) (ls : List Level) : Par D (.const n ls) (.const n ls)
  | lit (v : Literal) : Par D (.lit v) (.lit v)
  | app {f f' a a' : Term} : Par D f f' → Par D a a' → Par D (.app f a) (.app f' a')
  | lam {t t' b b' : Term} : Par D t t' → Par D b b' → Par D (.lam t b) (.lam t' b')
  | pi {t t' b b' : Term} : Par D t t' → Par D b b' → Par D (.pi t b) (.pi t' b')
  | letE {t t' v v' b b' : Term} : Par D t t' → Par D v v' → Par D b b' →
      Par D (.letE t v b) (.letE t' v' b')
  | beta {t b b' a a' : Term} : Par D b b' → Par D a a' →
      Par D (.app (.lam t b) a) (b'.inst a')
  | zeta {t v v' b b' : Term} : Par D v v' → Par D b b' → Par D (.letE t v b) (b'.inst v')
  | delta {n : Name} {ls : List Level} {v : Term} : D.value n ls = some v →
      Par D (.const n ls) v

section
variable {D : Definitions} {a a' b b' c e e' f f' t t' : Term}

namespace Par

theorem refl (e : Term) : Par D e e := by
  induction e with
  | bvar i => exact .bvar i
  | fvar x => exact .fvar x
  | sort l => exact .sort l
  | const n ls => exact .const n ls
  | lit v => exact .lit v
  | app f a ihf iha => exact .app ihf iha
  | lam t b iht ihb => exact .lam iht ihb
  | pi t b iht ihb => exact .pi iht ihb
  | letE t v b iht ihv ihb => exact .letE iht ihv ihb

theorem rename (h : Par D e e') (ρ : Nat → Nat) : Par D (e.rename ρ) (e'.rename ρ) := by
  induction h generalizing ρ with
  | app _ _ ihf iha => exact .app (ihf ρ) (iha ρ)
  | lam _ _ iht ihb => exact .lam (iht ρ) (ihb _)
  | pi _ _ iht ihb => exact .pi (iht ρ) (ihb _)
  | letE _ _ _ iht ihv ihb => exact .letE (iht ρ) (ihv ρ) (ihb _)
  | beta _ _ ihb iha =>
    rw [Term.rename_inst]
    exact .beta (ihb _) (iha ρ)
  | zeta _ _ ihv ihb =>
    rw [Term.rename_inst]
    exact .zeta (ihv ρ) (ihb _)
  | delta hv =>
    rw [(D.ground hv).closed.rename ρ]
    exact .delta hv
  | _ => exact .refl _

/-- The steps of what stands for variables, below one more binder. -/
theorem up {σ τ : Subst} (h : ∀ i, Par D (σ.bound i) (τ.bound i)) (i : Nat) :
    Par D (σ.up.bound i) (τ.up.bound i) := by
  cases i with
  | zero => exact .refl _
  | succ i => exact (h i).rename _

theorem subst (h : Par D e e') {σ τ : Subst} (hbound : ∀ i, Par D (σ.bound i) (τ.bound i))
    (hfree : ∀ x, Par D (σ.free x) (τ.free x)) : Par D (e.subst σ) (e'.subst τ) := by
  induction h generalizing σ τ with
  | bvar i => exact hbound i
  | fvar x => exact hfree x
  | app _ _ ihf iha => exact .app (ihf hbound hfree) (iha hbound hfree)
  | lam _ _ iht ihb => exact .lam (iht hbound hfree) (ihb (up hbound) fun x => (hfree x).rename _)
  | pi _ _ iht ihb => exact .pi (iht hbound hfree) (ihb (up hbound) fun x => (hfree x).rename _)
  | letE _ _ _ iht ihv ihb =>
    exact .letE (iht hbound hfree) (ihv hbound hfree)
      (ihb (up hbound) fun x => (hfree x).rename _)
  | beta _ _ ihb iha =>
    rw [Term.subst_inst]
    exact .beta (ihb (up hbound) fun x => (hfree x).rename _) (iha hbound hfree)
  | zeta _ _ ihv ihb =>
    rw [Term.subst_inst]
    exact .zeta (ihv hbound hfree) (ihb (up hbound) fun x => (hfree x).rename _)
  | delta hv =>
    rw [(D.ground hv).subst]
    exact .delta hv
  | _ => exact .refl _

theorem inst (hb : Par D b b') (ha : Par D a a') : Par D (b.inst a) (b'.inst a') := by
  refine hb.subst (fun i => ?_) fun x => .refl _
  cases i with
  | zero => exact ha
  | succ i => exact .refl _

end Par

/-! ### Confluence -/

/-- The term with all its redexes contracted. -/
def Term.complete (D : Definitions) : Term → Term
  | .const n ls => (D.value n ls).getD (.const n ls)
  | .app (.lam _ b) a => (b.complete D).inst (a.complete D)
  | .app f a => .app (f.complete D) (a.complete D)
  | .lam t b => .lam (t.complete D) (b.complete D)
  | .pi t b => .pi (t.complete D) (b.complete D)
  | .letE _ v b => (b.complete D).inst (v.complete D)
  | e => e

/-- What a step has left can be contracted in one more. -/
theorem Par.complete (h : Par D e e') : Par D e' (e.complete D) := by
  induction h with
  | const n ls =>
    rw [Term.complete]
    cases hv : D.value n ls with
    | none => exact .const n ls
    | some v => exact .delta hv
  | @app f f' a a' hf _ ihf iha =>
    cases f with
    | lam t b =>
      cases hf with
      | lam _ _ =>
        cases ihf with
        | lam _ hb => exact .beta hb iha
    | _ => exact .app ihf iha
  | lam _ _ iht ihb => exact .lam iht ihb
  | pi _ _ iht ihb => exact .pi iht ihb
  | letE _ _ _ _ ihv ihb => exact .zeta ihv ihb
  | beta _ _ ihb iha => exact ihb.inst iha
  | zeta _ _ ihv ihb => exact ihb.inst ihv
  | delta hv =>
    rw [Term.complete, hv]
    exact .refl _
  | _ => exact .refl _

/-- Any number of steps. -/
def Reduct (D : Definitions) : Term → Term → Prop := Relation.ReflTransGen (Par D)

/-- Whether two terms have a common reduct. -/
def Converts (D : Definitions) : Term → Term → Prop := Relation.Join (Reduct D)

theorem Par.diamond (e e₁ e₂ : Term) (h₁ : Par D e e₁) (h₂ : Par D e e₂) :
    ∃ d, Relation.ReflGen (Par D) e₁ d ∧ Reduct D e₂ d :=
  ⟨e.complete D, .single h₁.complete, .single h₂.complete⟩

theorem Converts.equivalence (D : Definitions) : Equivalence (Converts D) :=
  Relation.equivalence_join_reflTransGen Par.diamond

namespace Reduct

theorem refl (e : Term) : Reduct D e e := Relation.ReflTransGen.refl

theorem trans (h : Reduct D a b) (h' : Reduct D b c) : Reduct D a c :=
  Relation.ReflTransGen.trans h h'

/-- What keeps a step keeps any number of them. -/
theorem map {F : Term → Term} (hF : ∀ {x y}, Par D x y → Par D (F x) (F y))
    (h : Reduct D e e') : Reduct D (F e) (F e') :=
  Relation.ReflTransGen.lift F (fun _ _ => hF) _ _ h

theorem app (hf : Reduct D f f') (ha : Reduct D a a') : Reduct D (.app f a) (.app f' a') :=
  (hf.map fun h => h.app (.refl a)).trans (ha.map fun h => .app (.refl f') h)

theorem lam (ht : Reduct D t t') (hb : Reduct D b b') : Reduct D (.lam t b) (.lam t' b') :=
  (ht.map fun h => h.lam (.refl b)).trans (hb.map fun h => .lam (.refl t') h)

theorem pi (ht : Reduct D t t') (hb : Reduct D b b') : Reduct D (.pi t b) (.pi t' b') :=
  (ht.map fun h => h.pi (.refl b)).trans (hb.map fun h => .pi (.refl t') h)

theorem subst (h : Reduct D e e') (σ : Subst) : Reduct D (e.subst σ) (e'.subst σ) :=
  h.map fun h => h.subst (fun _ => .refl _) fun _ => .refl _

theorem inst (hb : Reduct D b b') (ha : Reduct D a a') : Reduct D (b.inst a) (b'.inst a') :=
  (hb.subst (.single a)).trans (ha.map fun h => (Par.refl b').inst h)

end Reduct

namespace Converts

theorem refl (e : Term) : Converts D e e := (equivalence D).refl e

theorem of_eq (h : a = b) : Converts D a b := h ▸ refl a

theorem symm (h : Converts D a b) : Converts D b a := (equivalence D).symm h

theorem trans (h : Converts D a b) (h' : Converts D b c) : Converts D a c :=
  (equivalence D).trans h h'

theorem of_reduct (h : Reduct D a b) : Converts D a b := ⟨b, h, .refl b⟩

theorem of_par (h : Par D a b) : Converts D a b := of_reduct (.single h)

theorem app (hf : Converts D f f') (ha : Converts D a a') :
    Converts D (.app f a) (.app f' a') := by
  obtain ⟨g, hg, hg'⟩ := hf
  obtain ⟨c, hc, hc'⟩ := ha
  exact ⟨.app g c, hg.app hc, hg'.app hc'⟩

theorem lam (ht : Converts D t t') (hb : Converts D b b') :
    Converts D (.lam t b) (.lam t' b') := by
  obtain ⟨s, hs, hs'⟩ := ht
  obtain ⟨c, hc, hc'⟩ := hb
  exact ⟨.lam s c, hs.lam hc, hs'.lam hc'⟩

theorem pi (ht : Converts D t t') (hb : Converts D b b') : Converts D (.pi t b) (.pi t' b') := by
  obtain ⟨s, hs, hs'⟩ := ht
  obtain ⟨c, hc, hc'⟩ := hb
  exact ⟨.pi s c, hs.pi hc, hs'.pi hc'⟩

theorem subst (h : Converts D a b) (σ : Subst) : Converts D (a.subst σ) (b.subst σ) := by
  obtain ⟨c, ha, hb⟩ := h
  exact ⟨c.subst σ, ha.subst σ, hb.subst σ⟩

theorem rename (h : Converts D a b) (ρ : Nat → Nat) : Converts D (a.rename ρ) (b.rename ρ) := by
  rw [Term.rename_eq_subst, Term.rename_eq_subst]
  exact h.subst _

theorem inst (hb : Converts D b b') (ha : Converts D a a') :
    Converts D (b.inst a) (b'.inst a') := by
  obtain ⟨d, hd, hd'⟩ := hb
  obtain ⟨c, hc, hc'⟩ := ha
  exact ⟨d.inst c, hd.inst hc, hd'.inst hc'⟩

theorem beta (t b a : Term) : Converts D (.app (.lam t b) a) (b.inst a) :=
  of_par (.beta (.refl b) (.refl a))

end Converts

/-! ### Heads that no step changes -/

namespace Term

/-- Whether no step changes the head of a term, nor would one if the term were
applied. -/
def Neutral (D : Definitions) : Term → Prop
  | .const n ls => D.value n ls = none
  | .app f _ => f.Neutral D
  | .lam _ _ => False
  | .letE _ _ _ => False
  | _ => True

/-- Whether no step changes the head of a term. -/
def Rigid (D : Definitions) : Term → Prop
  | .lam _ _ => True
  | e => e.Neutral D

/-- Whether a term has, with parts that may still reduce, the shape of its
rigid reducts. -/
def Settled (D : Definitions) : Term → Prop
  | .app f _ => ∃ g, Reduct D f g ∧ g.Neutral D
  | e => e.Rigid D

/-- Whether two terms have the same shape, and related parts. -/
def Agree (R : Term → Term → Prop) : Term → Term → Prop
  | .bvar i, .bvar j => i = j
  | .fvar x, .fvar y => x = y
  | .sort l, .sort l' => l = l'
  | .const n ls, .const n' ls' => n = n' ∧ ls = ls'
  | .lit v, .lit v' => v = v'
  | .app f a, .app f' a' => R f f' ∧ R a a'
  | .lam t b, .lam t' b' => R t t' ∧ R b b'
  | .pi t b, .pi t' b' => R t t' ∧ R b b'
  | _, _ => False

variable {R R' : Term → Term → Prop}

theorem Agree.mono (h : Agree R a b) (hR : ∀ {x y}, R x y → R' x y) : Agree R' a b := by
  cases a <;> cases b <;> simp only [Agree] at h ⊢ <;>
    first | exact h | exact ⟨hR h.1, hR h.2⟩

theorem Agree.symm (h : Agree R a b) (hR : ∀ {x y}, R x y → R' y x) : Agree R' b a := by
  cases a <;> cases b <;> simp only [Agree] at h ⊢ <;>
    first | exact h.symm | exact ⟨h.1.symm, h.2.symm⟩ | exact ⟨hR h.1, hR h.2⟩

theorem Agree.trans (h : Agree R a b) (h' : Agree R b c)
    (hR : ∀ {x y z}, R x y → R y z → R x z) : Agree R a c := by
  cases a <;> cases b <;> simp only [Agree] at h <;> cases c <;> simp only [Agree] at h' ⊢ <;>
    first
      | exact h.trans h'
      | exact ⟨h.1.trans h'.1, h.2.trans h'.2⟩
      | exact ⟨hR h.1 h'.1, hR h.2 h'.2⟩

end Term

open Term

theorem Par.neutral (h : Par D e e') (he : e.Neutral D) : e'.Neutral D := by
  induction h with
  | app _ _ ihf _ => exact ihf he
  | lam _ _ | letE _ _ _ | zeta _ _ | beta _ _ => exact he.elim
  | delta hv => exact absurd (hv.symm.trans he) nofun
  | _ => exact he

theorem Reduct.neutral (h : Reduct D e e') (he : e.Neutral D) : e'.Neutral D := by
  induction h with
  | refl => exact he
  | tail _ hstep ih => exact hstep.neutral ih

/-- A step of a rigid term is made of steps of its parts. -/
theorem Par.agree (h : Par D e e') (he : e.Rigid D) : e'.Rigid D ∧ Agree (Par D) e e' := by
  cases h with
  | app hf ha => exact ⟨hf.neutral he, hf, ha⟩
  | lam ht hb => exact ⟨trivial, ht, hb⟩
  | pi ht hb => exact ⟨trivial, ht, hb⟩
  | letE _ _ _ => exact False.elim he
  | zeta _ _ => exact False.elim he
  | beta _ _ => exact False.elim he
  | delta hv => exact absurd (hv.symm.trans he) nofun
  | const n ls => exact ⟨he, rfl, rfl⟩
  | _ => exact ⟨trivial, rfl⟩

theorem Reduct.agree (h : Reduct D e e') (he : e.Rigid D) :
    e'.Rigid D ∧ Agree (Reduct D) e e' := by
  induction h with
  | refl =>
    refine ⟨he, ?_⟩
    cases e with
    | letE t v b => exact False.elim he
    | app _ _ | lam _ _ | pi _ _ => exact ⟨.refl _, .refl _⟩
    | const n ls => exact ⟨rfl, rfl⟩
    | _ => exact rfl
  | tail _ hstep ih =>
    obtain ⟨hrigid, hagree⟩ := hstep.agree ih.1
    exact ⟨hrigid, ih.2.trans (hagree.mono Relation.ReflTransGen.single) Reduct.trans⟩

/-- A settled term and one of its rigid reducts. -/
theorem Term.Settled.exists_rigid (h : e.Settled D) :
    ∃ e', Reduct D e e' ∧ e'.Rigid D ∧ Agree (Converts D) e e' := by
  cases e with
  | app f a =>
    obtain ⟨g, hg, hneutral⟩ := h
    exact ⟨.app g a, hg.app (.refl a), hneutral, .of_reduct hg, .refl a⟩
  | letE t v b => exact False.elim h
  | lam _ _ | pi _ _ => exact ⟨_, .refl _, h, .refl _, .refl _⟩
  | const n ls => exact ⟨_, .refl _, h, rfl, rfl⟩
  | _ => exact ⟨_, .refl _, h, rfl⟩

/-- Settled terms are convertible only part by part. -/
theorem Converts.agree (h : Converts D a b) (ha : a.Settled D) (hb : b.Settled D) :
    Agree (Converts D) a b := by
  obtain ⟨a', ha', hrigid, hagree⟩ := ha.exists_rigid
  obtain ⟨b', hb', hrigid', hagree'⟩ := hb.exists_rigid
  obtain ⟨c, hac, hbc⟩ : Converts D a' b' :=
    (of_reduct ha').symm.trans (h.trans (of_reduct hb'))
  have hleft := (hac.agree hrigid).2.mono of_reduct
  have hright := (hbc.agree hrigid').2.mono of_reduct
  exact (hagree.trans hleft Converts.trans).trans
    ((hagree'.trans hright Converts.trans).symm Converts.symm) Converts.trans

theorem Converts.pi_inj (h : Converts D (.pi t b) (.pi t' b')) :
    Converts D t t' ∧ Converts D b b' :=
  h.agree trivial trivial

theorem Converts.sort_inj {l l' : Level} (h : Converts D (.sort l) (.sort l')) : l = l' :=
  h.agree trivial trivial

/-- A settled term that is no function has a neutral reduct. -/
theorem Term.Settled.exists_neutral (h : e.Settled D) (hlam : ∀ t b, e ≠ .lam t b) :
    ∃ e', Reduct D e e' ∧ e'.Neutral D := by
  cases e with
  | app f a =>
    obtain ⟨g, hg, hneutral⟩ := h
    exact ⟨.app g a, hg.app (.refl a), hneutral⟩
  | lam t b => exact absurd rfl (hlam t b)
  | _ => exact ⟨_, .refl _, h⟩

theorem Converts.exists_neutral (h : Converts D a b) (hb : ∃ b', Reduct D b b' ∧ b'.Neutral D) :
    ∃ a', Reduct D a a' ∧ a'.Neutral D := by
  obtain ⟨b', hb', hneutral⟩ := hb
  obtain ⟨c, hac, hbc⟩ := h.trans (of_reduct hb')
  exact ⟨c, hac, hbc.neutral hneutral⟩

end

/-! ### More definitions -/

/-- Whether the constants with a value have the same value in `D'`. -/
def Definitions.Le (D D' : Definitions) : Prop :=
  ∀ {n ls v}, D.value n ls = some v → D'.value n ls = some v

/-- No constant has a value. -/
def Definitions.none : Definitions := ⟨fun _ _ => Option.none, nofun⟩

theorem Definitions.none_le (D : Definitions) : none.Le D := nofun

section
variable {D D' : Definitions} (hD : D.Le D') {a b : Term}
include hD

theorem Par.mono (h : Par D a b) : Par D' a b := by
  induction h with
  | app _ _ ihf iha => exact .app ihf iha
  | lam _ _ iht ihb => exact .lam iht ihb
  | pi _ _ iht ihb => exact .pi iht ihb
  | letE _ _ _ iht ihv ihb => exact .letE iht ihv ihb
  | beta _ _ ihb iha => exact .beta ihb iha
  | zeta _ _ ihv ihb => exact .zeta ihv ihb
  | delta hv => exact .delta (hD hv)
  | _ => exact .refl _

theorem Converts.mono (h : Converts D a b) : Converts D' a b := by
  obtain ⟨c, ha, hb⟩ := h
  exact ⟨c, Relation.ReflTransGen.mono (fun _ _ => Par.mono hD) _ _ ha,
    Relation.ReflTransGen.mono (fun _ _ => Par.mono hD) _ _ hb⟩

end

end Pinpoint
