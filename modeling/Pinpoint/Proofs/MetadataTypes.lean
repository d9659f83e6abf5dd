/-
Metadata makes no difference to types.

Two computations agree if, whenever both end, their results are related and they
have drawn as many variables.  Computations whose steps agree agree, so inference
of terms that are the same up to metadata agrees, although weak-head reduction may
stop at different terms.

* `Supply.Agree`, `CheckM.Agree` — computations that agree, and how they are put
  together;
* `inferType_agree` — the types of terms that are the same up to metadata are the
  same up to metadata, or neither term has a type.
-/
import Pinpoint.Proofs.SameHeads
import Pinpoint.Proofs.Supply

namespace Pinpoint

/-! ### Computations that agree -/

/-- Whether two computations that both end have related results and leave the
same supply. -/
def Supply.Agree {α β : Type} (R : α → β → Prop) (m : Supply α) (m' : Supply β) : Prop :=
  ∀ s a t b t', m.run s = some (a, t) → m'.run s = some (b, t') → R a b ∧ t = t'

namespace Supply.Agree

variable {α β γ δ : Type} {R R' : α → β → Prop} {Q : γ → δ → Prop}

theorem pure {a : α} {b : β} (hab : R a b) :
    Agree R (Pure.pure a : Supply α) (Pure.pure b : Supply β) := by
  intro s a' t b' t' hm hm'
  obtain ⟨rfl, rfl⟩ := run_pure_eq_some.mp hm
  obtain ⟨rfl, rfl⟩ := run_pure_eq_some.mp hm'
  exact ⟨hab, rfl⟩

theorem bind {m : Supply α} {m' : Supply β} {f : α → Supply γ} {f' : β → Supply δ}
    (hm : Agree R m m') (hf : ∀ a b, R a b → Agree Q (f a) (f' b)) :
    Agree Q (m >>= f) (m' >>= f') := by
  intro s c u d u' h h'
  obtain ⟨a, t, ha, hc⟩ := run_bind_eq_some.mp h
  obtain ⟨b, t', hb, hd⟩ := run_bind_eq_some.mp h'
  obtain ⟨hab, rfl⟩ := hm s a t b t' ha hb
  exact hf a b hab t c u d u' hc hd

theorem lift {o : Option α} {o' : Option β} (ho : ∀ a b, o = some a → o' = some b → R a b) :
    Agree R (liftM o : Supply α) (liftM o' : Supply β) := by
  intro s a t b t' h h'
  obtain ⟨ha, rfl⟩ := run_lift_eq_some.mp h
  obtain ⟨hb, rfl⟩ := run_lift_eq_some.mp h'
  exact ⟨ho a b ha hb, rfl⟩

end Supply.Agree

/-- The same for computations that may fail: both fail, or neither. -/
def CheckM.Agree {α β : Type} (R : α → β → Prop) (m : CheckM α) (m' : CheckM β) : Prop :=
  Supply.Agree (CheckM.Related R) m.run m'.run

namespace CheckM.Agree

variable {α β γ δ : Type} {R R' : α → β → Prop} {Q : γ → δ → Prop}

theorem pure {a : α} {b : β} (hab : R a b) :
    Agree R (Pure.pure a : CheckM α) (Pure.pure b : CheckM β) :=
  Supply.Agree.pure (R := Related R) hab

theorem throw (e e' : CheckError) :
    Agree R (MonadExcept.throw e : CheckM α) (MonadExcept.throw e' : CheckM β) :=
  Supply.Agree.pure (R := Related R) (a := .error e) (b := .error e') trivial

theorem refl {R : α → α → Prop} (hR : ∀ a, R a a) (m : CheckM α) : Agree R m m := by
  intro s a t b t' ha hb
  obtain ⟨rfl, rfl⟩ := Prod.mk.inj (Option.some.inj (ha.symm.trans hb))
  refine ⟨?_, rfl⟩
  cases a with
  | error e => trivial
  | ok a => exact hR a

theorem bind {m : CheckM α} {m' : CheckM β} {f : α → CheckM γ} {f' : β → CheckM δ}
    (hm : Agree R m m') (hf : ∀ a b, R a b → Agree Q (f a) (f' b)) :
    Agree Q (m >>= f) (m' >>= f') := by
  refine Supply.Agree.bind hm fun x y hxy => ?_
  cases x <;> cases y
  · exact CheckM.Agree.throw (R := Q) _ _
  · cases hxy
  · cases hxy
  · exact hf _ _ hxy

theorem bind_lift {o : Option α} {o' : Option β} {f : α → CheckM γ} {f' : β → CheckM δ}
    (hf : ∀ a b, o = some a → o' = some b → Agree Q (f a) (f' b)) :
    Agree Q (liftM o >>= f) (liftM o' >>= f') := by
  intro s c u d u' h h'
  cases o with
  | none => cases h
  | some a =>
    cases o' with
    | none => cases h'
    | some b => exact hf a b rfl rfl s c u d u' h h'

/-- A guard that both pass or neither. -/
theorem guard {c c' : Bool} {e e' : CheckError} {m : CheckM γ} {m' : CheckM δ}
    {f : PUnit → CheckM γ} {f' : PUnit → CheckM δ} (hc : c = c') (hm : Agree Q m m') :
    Agree Q (if c then m else MonadExcept.throw e >>= f)
      (if c' then m' else MonadExcept.throw e' >>= f') := by
  subst hc
  cases c with
  | true => exact hm
  | false => exact CheckM.Agree.throw (R := Q) e e'

/-- Both draw the same variable. -/
theorem bind_fresh {f : FVarId → CheckM γ} {f' : FVarId → CheckM δ}
    (hf : ∀ x, Agree Q (f x) (f' x)) :
    Agree Q (liftM Supply.fresh >>= f) (liftM Supply.fresh >>= f') :=
  fun s c u d u' h h' => hf ⟨s⟩ (s + 1) c u d u' h h'

end CheckM.Agree

/-! ### Types -/

/-- Whether two contexts give each free variable the same type, up to metadata. -/
def LocalContext.SameTypes (Γ Γ' : LocalContext) : Prop :=
  ∀ x, (Γ.find? x).map (fun entry => Cleaning.dropMData.clean entry.type) =
    (Γ'.find? x).map fun entry => Cleaning.dropMData.clean entry.type

theorem LocalContext.SameTypes.push {Γ Γ' : LocalContext} (h : Γ.SameTypes Γ') (x : FVarId)
    (n : Name) {T T' : Expr} (hT : Cleaning.dropMData.clean T = Cleaning.dropMData.clean T') :
    (Γ.push x n T).SameTypes (Γ'.push x n T') := by
  intro y
  rw [find?_push, find?_push]
  split
  · exact congrArg some hT
  · exact h y

namespace Environment

open Pinpoint.Expr Cleaning

variable {env : Environment} {Γ Γ' : LocalContext} {m n : Nat} {e e' T T' : Expr}

theorem inferType_stripMData {s : UInt64} {r : Except CheckError Expr × UInt64}
    (h : (env.inferType n Γ e).run.run s = some r) :
    ∃ k, (env.inferType k Γ e.stripMData).run.run s = some r := by
  induction n generalizing e with
  | zero => cases h
  | succ n ih =>
    cases e with
    | mdata _ e => exact ih (e := e) h
    | _ => exact ⟨n + 1, h⟩

theorem alike_of_dropMData {a b : Expr} (h : dropMData.clean a = dropMData.clean b) : Alike a b :=
  skeleton_eq_of_eraseMData_eq (by rwa [dropMData_clean, dropMData_clean] at h)

/-- It is enough to ask for the type of the term under the metadata. -/
theorem agree_of_stripMData {R : Expr → Expr → Prop} {c : CheckM Expr}
    (h : ∀ k, CheckM.Agree R c (env.inferType (k + 1) Γ e.stripMData)) :
    CheckM.Agree R c (env.inferType n Γ e) := by
  intro s a t b t' ha hb
  obtain ⟨k, hk⟩ := inferType_stripMData hb
  cases k with
  | zero => cases (show (none : Option (Except CheckError Expr × UInt64)) = _ from hk)
  | succ k => exact h k s a t b t' ha hk

/-- What terms that are the same up to metadata reduce to is a universe for both
of them, and the same, or for neither. -/
theorem sort_of_whnf (hT : dropMData.clean T = dropMData.clean T') {W W' : Expr}
    (hW : env.whnf .all n T = some W) (hW' : env.whnf .all m T' = some W') (l : Level) :
    W = .sort l ↔ W' = .sort l := by
  rcases whnf_cases_of_clean hT hW hW' with ⟨hhead, hhead', hWW⟩ | ⟨f, u, g, v, rfl, rfl⟩
  · constructor
    · rintro rfl
      obtain ⟨l', hs, rfl⟩ := of_sort hWW
      exact hhead'.stripMData_eq.symm.trans hs
    · rintro rfl
      obtain ⟨l', hs, rfl⟩ := of_sort hWW.symm
      exact hhead.stripMData_eq.symm.trans hs
  · exact iff_of_false nofun nofun

theorem pi_of_whnf (hT : dropMData.clean T = dropMData.clean T') {W W' : Expr}
    (hW : env.whnf .all n T = some W) (hW' : env.whnf .all m T' = some W') {i : BinderInfo}
    {d b : Expr} (hpi : W = .pi i d b) :
    ∃ i' d' b', W' = .pi i' d' b' ∧ dropMData.clean d = dropMData.clean d' ∧
      dropMData.clean b = dropMData.clean b' := by
  subst hpi
  rcases whnf_cases_of_clean hT hW hW' with ⟨-, hhead', hWW⟩ | ⟨_, _, _, _, happ, -⟩
  · obtain ⟨i', d', b', hs, -, hd, hb⟩ := of_pi hWW
    exact ⟨i', d', b', hhead'.stripMData_eq.symm.trans hs, hd, hb⟩
  · cases happ

/-- Types that are the same up to metadata have the same universe, or neither has
one. -/
theorem sortOfType_agree (hT : dropMData.clean T = dropMData.clean T') :
    CheckM.Agree (· = ·) (env.sortOfType n e T) (env.sortOfType m e' T') := by
  refine .bind_lift fun W W' hW hW' => ?_
  have hsort := sort_of_whnf hT hW hW'
  split
  · obtain rfl := (hsort _).mp rfl
    exact .pure rfl
  · split
    · rename_i hne _ l'
      exact absurd ((hsort l').mpr rfl) (hne l')
    · exact .throw _ _

theorem inferType_fvar_agree (hΓ : Γ.SameTypes Γ') (x : FVarId) :
    CheckM.Agree (fun T T' => dropMData.clean T = dropMData.clean T')
      (env.inferType (n + 1) Γ (.fvar x)) (env.inferType (m + 1) Γ' (.fvar x)) := by
  rw [inferType, inferType]
  have hx := hΓ x
  cases h : Γ.find? x with
  | none =>
    rw [h] at hx
    rw [Option.map_eq_none_iff.mp hx.symm]
    exact .throw _ _
  | some entry =>
    rw [h] at hx
    obtain ⟨entry', h', htype⟩ := Option.map_eq_some_iff.mp hx.symm
    rw [h']
    exact .pure htype.symm

/-- Applications agree if their functions and their arguments do. -/
theorem inferType_app_agree {f a f' a' : Expr} (ha : dropMData.clean a = dropMData.clean a')
    (hf : CheckM.Agree (fun F F' => dropMData.clean F = dropMData.clean F')
      (env.inferType n Γ f) (env.inferType m Γ' f'))
    (harg : CheckM.Agree (fun A A' => dropMData.clean A = dropMData.clean A')
      (env.inferType n Γ a) (env.inferType m Γ' a')) :
    CheckM.Agree (fun T T' => dropMData.clean T = dropMData.clean T')
      (env.inferType (n + 1) Γ (.app f a)) (env.inferType (m + 1) Γ' (.app f' a')) := by
  rw [inferType, inferType]
  refine .bind hf fun F F' hF => .bind_lift fun W W' hW hW' => ?_
  split
  · obtain ⟨i', d', b', rfl, hd, hb⟩ := pi_of_whnf hF hW hW' rfl
    refine .bind harg fun A A' hA => .bind_lift fun r r' hr hr' => .guard ?_ (.pure ?_)
    · exact Decides.of_alike (alike_of_dropMData hA) (alike_of_dropMData hd) ⟨_, hr⟩ ⟨_, hr'⟩
    · exact clean_instantiate_congr hb ha
  · -- The first type is no function type, so neither is the second.
    split
    · rename_i hne _ i d' b'
      obtain ⟨i', d, b, hpi, -⟩ := pi_of_whnf hF.symm hW' hW rfl
      exact absurd hpi (hne i' d b)
    · exact .throw _ _

/-- The types of terms that are the same up to metadata are the same up to
metadata, or neither term has one. -/
theorem inferType_agree (hΓ : Γ.SameTypes Γ') (he : dropMData.clean e = dropMData.clean e') :
    CheckM.Agree (fun T T' => dropMData.clean T = dropMData.clean T') (env.inferType n Γ e)
      (env.inferType m Γ' e') := by
  induction n generalizing Γ Γ' e e' m with
  | zero =>
    intro s a t b t' h
    cases (show (none : Option (Except CheckError Expr × UInt64)) = some (a, t) from h)
  | succ n ih =>
    -- Bodies are opened with the same variable, as both sides have drawn as many.
    have hopen : ∀ {dom dom' body body' : Expr} {m : Nat} (x : FVarId),
        dropMData.clean dom = dropMData.clean dom' → dropMData.clean body = dropMData.clean body' →
          CheckM.Agree (fun T T' => dropMData.clean T = dropMData.clean T')
            (env.inferType n (Γ.push x (.simple "x") dom) (body.instantiate (.fvar x)))
            (env.inferType m (Γ'.push x (.simple "x") dom') (body'.instantiate (.fvar x))) :=
      fun x hdom hbody => ih (hΓ.push x _ hdom) (clean_instantiate_congr hbody rfl)
    -- Under its metadata the second term has the form of the first one.
    cases e with
    | mdata d e => exact ih (e := e) hΓ he
    | bvar _ | const _ _ =>
      refine agree_of_stripMData fun m => ?_
      rw [of_leaf he trivial, inferType, inferType]
      exact CheckM.Agree.refl (fun T => Eq.refl (dropMData.clean T)) _
    | fvar x =>
      refine agree_of_stripMData fun m => ?_
      rw [of_leaf he trivial]
      exact inferType_fvar_agree hΓ x
    | lit v =>
      refine agree_of_stripMData fun m => ?_
      rw [of_leaf he trivial]
      cases v <;> exact .pure rfl
    | sort l =>
      refine agree_of_stripMData fun m => ?_
      obtain ⟨l', hs, rfl⟩ := of_sort he
      rw [hs]
      exact .pure rfl
    | app f a =>
      refine agree_of_stripMData fun m => ?_
      obtain ⟨f', a', hs, hf, ha⟩ := of_app he
      rw [hs]
      exact inferType_app_agree ha (ih hΓ hf) (ih hΓ ha)
    | lam info dom body =>
      refine agree_of_stripMData fun m => ?_
      obtain ⟨info', dom', body', hs, hinfo, hdom, hbody⟩ := of_lam he
      rw [hs, inferType, inferType]
      refine .bind (ih hΓ hdom) fun D D' hD => .bind (sortOfType_agree hD) fun _ _ _ =>
        .bind_fresh fun x => .bind (hopen x hdom hbody) fun B B' hB => .pure ?_
      rw [clean, clean, hinfo, hdom, clean_abstractFVar_congr hB]
    | pi info dom body =>
      refine agree_of_stripMData fun m => ?_
      obtain ⟨info', dom', body', hs, -, hdom, hbody⟩ := of_pi he
      rw [hs, inferType, inferType]
      refine .bind (ih hΓ hdom) fun D D' hD => .bind (sortOfType_agree hD) fun l l' hl =>
        .bind_fresh fun x => .bind (hopen x hdom hbody) fun B B' hB =>
          .bind (sortOfType_agree hB) fun l₂ l₂' hl₂ => .pure ?_
      rw [hl, hl₂]
    | letE type value body =>
      refine agree_of_stripMData fun m => ?_
      obtain ⟨type', value', body', hs, htype, hvalue, hbody⟩ := of_letE he
      rw [hs, inferType, inferType]
      refine .bind (ih hΓ htype) fun D D' hD => .bind (sortOfType_agree hD) fun _ _ _ =>
        .bind (ih hΓ hvalue) fun A A' hA => .bind_lift fun r r' hr hr' => .guard ?_ ?_
      · exact Decides.of_alike (alike_of_dropMData hA) (alike_of_dropMData htype) ⟨_, hr⟩ ⟨_, hr'⟩
      · exact ih hΓ (clean_instantiate_congr hbody hvalue)

end Environment

end Pinpoint
