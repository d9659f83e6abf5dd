/-
Elaboration, begun later in its range.

Where binders were opened before, the next ones are opened with other variables.
They are abstracted again, so the same term is read, as long as there are
variables left.

* `ElabM.DrawsAtMost` — how far a computation moves the supply, however it ends;
* `ElabM.Mirrors` — a computation that does in a renamed context, from where the
  supply stands there, what another one does;
* `Reading.mirrors` — so do all readings;
* `elaborate_returns_later` — a term that is read from one place is read from
  every other one.
-/
import Pinpoint.Proofs.Elaborated
import Pinpoint.Proofs.Instances
import Pinpoint.Proofs.Spines

namespace Pinpoint

open Environment (Tracks)

/-! ### Draws -/

namespace ElabM

variable {α β : Type} {k l : Nat}

/-- Whether a computation, however it ends, has drawn at most so many
variables. -/
def DrawsAtMost (k : Nat) (m : ElabM α) : Prop :=
  ∀ ⦃s r t⦄, m.run.run s = some (r, t) → ∃ j ≤ k, t = s + .ofNat j

theorem DrawsAtMost.mono {m : ElabM α} (h : m.DrawsAtMost k) (hkl : k ≤ l) : m.DrawsAtMost l := by
  intro s r t hr
  obtain ⟨j, hj, ht⟩ := h hr
  exact ⟨j, Nat.le_trans hj hkl, ht⟩

theorem drawsAtMost_pure (a : α) : DrawsAtMost 0 (pure a : ElabM α) := by
  intro s r t h
  obtain ⟨-, rfl⟩ := Supply.run_pure_eq_some.mp h
  exact ⟨0, Nat.le_refl 0, (UInt64.add_zero s).symm⟩

theorem drawsAtMost_throw (e : ElaborationError) : DrawsAtMost 0 (throw e : ElabM α) := by
  intro s r t h
  obtain ⟨-, rfl⟩ := Supply.run_pure_eq_some (a := Except.error e).mp h
  exact ⟨0, Nat.le_refl 0, (UInt64.add_zero s).symm⟩

theorem DrawsAtMost.bind {m : ElabM α} {f : α → ElabM β} (hm : m.DrawsAtMost k)
    (hf : ∀ a, (f a).DrawsAtMost l) : DrawsAtMost (k + l) (m >>= f) := by
  intro s r u h
  rw [ExceptT.run_bind, Supply.run_bind_eq_some] at h
  obtain ⟨x, t, hx, h⟩ := h
  obtain ⟨i, hi, rfl⟩ := hm hx
  cases x with
  | error e =>
    obtain ⟨-, rfl⟩ := Supply.run_pure_eq_some.mp h
    exact ⟨i, by omega, rfl⟩
  | ok a =>
    obtain ⟨j, hj, rfl⟩ := hf a h
    exact ⟨i + j, by omega, (add_ofNat_add s i j).symm⟩

theorem drawsAtMost_lift (o : Option α) : DrawsAtMost 0 (liftM o : ElabM α) := by
  intro s r t h
  cases o with
  | none => cases (show (none : Option (Except ElaborationError α × UInt64)) = some (r, t) from h)
  | some a =>
    obtain ⟨-, rfl⟩ := Prod.mk.inj (Option.some.inj
      (show some (Except.ok a, s) = some (r, t) from h))
    exact ⟨0, Nat.le_refl 0, (UInt64.add_zero s).symm⟩

theorem drawsAtMost_fresh : DrawsAtMost 1 (liftM Supply.fresh : ElabM FVarId) := by
  intro s r t h
  obtain ⟨-, rfl⟩ := Prod.mk.inj (Option.some.inj
    (show some (Except.ok ⟨s⟩, s + 1) = some (r, t) from h))
  exact ⟨1, Nat.le_refl 1, rfl⟩

theorem drawsAtMost_mapM {f : β → ElabM α} {count : β → Nat} {bs : List β}
    (h : ∀ b ∈ bs, (f b).DrawsAtMost (count b)) : (bs.mapM f).DrawsAtMost (bs.map count).sum := by
  induction bs with
  | nil =>
    rw [List.mapM_nil]
    exact drawsAtMost_pure _
  | cons b bs ih =>
    obtain ⟨hb, hbs⟩ := List.forall_mem_cons.mp h
    rw [List.mapM_cons, List.map_cons, List.sum_cons]
    exact hb.bind fun a => (ih hbs).bind fun as => drawsAtMost_pure _

end ElabM

namespace Elaboration

open ElabM Pinpoint.Expr

variable {env : Environment} {fuel : Nat} {Γ : LocalContext}

/-- A checker of its own has a supply of its own. -/
theorem ofCheck_drawsAtMost {α : Type} (m : CheckM α) : (ofCheck m).DrawsAtMost 0 := by
  refine (drawsAtMost_lift _).bind (l := 0) fun r => ?_
  cases r with
  | error e => exact drawsAtMost_throw _
  | ok a => exact drawsAtMost_pure a

theorem solveLevels_drawsAtMost (params : List Name) (type : Expr) (args : List Expr)
    (solved : List (Option Level)) :
    (solveLevels env fuel Γ params type args solved).DrawsAtMost 0 := by
  induction args generalizing type solved with
  | nil =>
    rw [solveLevels_nil]
    exact drawsAtMost_pure _
  | cons a args ih =>
    rcases solveLevels_cons params type solved with
      ⟨body, hstep⟩ | ⟨body, next, hstep⟩ | hstep
    · rw [hstep]
      exact ih body solved
    · rw [hstep]
      exact (ofCheck_drawsAtMost _).bind fun l => ih body (next l)
    · rw [hstep]
      exact drawsAtMost_pure _

theorem resolve_drawsAtMost (text : String) (args : List Expr) :
    (resolve env fuel Γ text args).DrawsAtMost 0 := by
  unfold resolve
  split
  · exact drawsAtMost_pure _
  · dsimp only
    split
    · exact drawsAtMost_throw _
    · exact (solveLevels_drawsAtMost _ _ _ _).bind (l := 0) fun _ => drawsAtMost_pure _

theorem operation_drawsAtMost (op : Operator) (lhs rhs : Expr) :
    (operation env fuel Γ op lhs rhs).DrawsAtMost 0 := by
  unfold operation
  split
  · exact drawsAtMost_pure _
  · split
    · exact (ofCheck_drawsAtMost _).bind (l := 0) fun _ =>
        (ofCheck_drawsAtMost _).bind (l := 0) fun _ => drawsAtMost_pure _
    · exact drawsAtMost_throw _

/-- One variable is drawn for each binder that is opened, or fewer where the
reading fails. -/
theorem Reading.drawsAtMost {k : Nat} {m : LocalContext → ElabM Expr} (h : Reading env fuel k m)
    (Γ : LocalContext) : (m Γ).DrawsAtMost k := by
  induction h generalizing Γ with
  | atom he => exact drawsAtMost_pure _
  | name text _ ih =>
    exact (drawsAtMost_mapM fun a ha => ih a ha Γ).bind fun as =>
      (resolve_drawsAtMost text as).bind (l := 0) fun f => drawsAtMost_pure _
  | app _ _ ih ihhead =>
    exact (drawsAtMost_mapM fun a ha => ih a ha Γ).bind fun as =>
      (ihhead Γ).bind fun f => drawsAtMost_pure _
  | arrow _ _ ihdom ihcod =>
    exact (ihdom Γ).bind fun d => (ihcod Γ).bind fun c => drawsAtMost_pure _
  | @binder mk hmk text k l type inside _ _ ihtype ihinside =>
    rw [Nat.add_assoc]
    refine (ihtype Γ).bind fun T => ?_
    have hopen : DrawsAtMost (0 + (1 + (l + 0))) (openBinder env fuel mk Γ text T inside) :=
      (ofCheck_drawsAtMost _).bind fun _ => drawsAtMost_fresh.bind fun x =>
        (ihinside _).bind fun b => drawsAtMost_pure _
    exact hopen.mono (by omega)
  | operation op _ _ ihlhs ihrhs =>
    exact (ihlhs Γ).bind fun a => (ihrhs Γ).bind fun b => operation_drawsAtMost op a b

end Elaboration

/-! ### Terms that the checker can count -/

namespace Expr

variable {a b : Expr} {i : BinderInfo} {x : FVarId}

/-- To open the binder that an abstraction makes is to rename the variable. -/
theorem instantiate_abstractFVar (hb : b.closedUnder 0) (x y : FVarId) :
    (b.abstractFVar x).instantiate (.fvar y) = b.rename fun z => if z = x then y else z := by
  unfold closedUnder at hb
  unfold abstractFVar instantiate
  generalize (0 : UInt32) = d at hb ⊢
  induction b generalizing d with
  | bvar j =>
    have hj : j < d := by simpa [allBVars] using hb
    have hne : j ≠ d := by
      rintro rfl
      exact absurd hj (UInt32.lt_irrefl j)
    simp only [mapVars, rename, if_neg (UInt32.not_le.mpr hj), if_neg hne,
      if_neg (UInt32.lt_asymm hj)]
  | fvar z =>
    by_cases hz : z = x <;> simp [mapVars, rename, hz, lift, liftAt]
  | app f a ihf iha =>
    obtain ⟨hf, ha⟩ := Bool.and_eq_true_iff.mp hb
    simp only [mapVars, rename, ihf d hf, iha d ha]
  | lam i t b iht ihb | pi i t b iht ihb =>
    obtain ⟨ht, hb⟩ := Bool.and_eq_true_iff.mp hb
    simp only [mapVars, rename, iht d ht, ihb (d + 1) hb]
  | letE t v b iht ihv ihb =>
    obtain ⟨htv, hb⟩ := Bool.and_eq_true_iff.mp hb
    obtain ⟨ht, hv⟩ := Bool.and_eq_true_iff.mp htv
    simp only [mapVars, rename, iht d ht, ihv d hv, ihb (d + 1) hb]
  | mdata m e ih => simp only [mapVars, rename, ih d hb]
  | _ => rfl

theorem openings_abstractFVar (hb : b.closedUnder 0) (x y : FVarId) (n : Nat) :
    ((b.abstractFVar x).instantiate (.fvar y)).openings n = b.openings n := by
  rw [instantiate_abstractFVar hb, openings_rename]

namespace Openable

/-- A binder counts once more than its type and its body, opened. -/
theorem pi (h : (Expr.pi i a b).Openable) : a.Openable ∧ b.nesting < 2 ^ 31 ∧
    ∀ n, Checker.firstFresh.toNat + (b.instantiate (.fvar ⟨0⟩)).openings n < 2 ^ 64 := by
  have hn := h.nesting
  simp only [Expr.nesting] at hn
  refine ⟨⟨by omega, fun n => ?_⟩, by omega, fun n => ?_⟩ <;>
    have := h.fits (n + 1) <;> rw [openings] at this <;> omega

theorem lam (h : (Expr.lam i a b).Openable) : (Expr.pi i a b).Openable :=
  ⟨h.nesting, fun n => by
    cases n with
    | zero => exact h.fits 0
    | succ n => exact h.fits (n + 1)⟩

/-- The parts of a binder that was put around a term. -/
theorem abstractFVar (hb : b.Scoped 0) (h : (Expr.pi i a (b.abstractFVar x)).Openable) :
    a.Openable ∧ b.Openable := by
  obtain ⟨ha, hnesting, hfits⟩ := h.pi
  have hle : b.nesting ≤ (b.abstractFVar x).nesting := nesting_le_mapVars _ _ _ _
  refine ⟨ha, by omega, fun n => ?_⟩
  have hn := hfits n
  rwa [openings_abstractFVar (hb.closedUnder (by omega))] at hn

/-- The parts of an arrow. -/
theorem arrow (hb : b.Scoped 0) (h : (Expr.arrow a b).Openable) : a.Openable ∧ b.Openable := by
  obtain ⟨ha, hnesting, hfits⟩ := Openable.pi h
  have hle : b.nesting ≤ (b.lift 1).nesting := nesting_le_mapVars _ _ _ _
  have hsmall : b.nesting < 2 ^ 32 := by omega
  refine ⟨ha, by omega, fun n => ?_⟩
  have hn := hfits n
  rwa [lift_eq_self (hb.hasLooseBVars hsmall), instantiate_eq_self (hb.closedUnder hsmall)] at hn

end Openable

end Expr

/-! ### Renamed contexts -/

namespace LocalContext

variable {ρ : FVarId → FVarId} {Γ : LocalContext}

theorem rename_push (ρ : FVarId → FVarId) (Γ : LocalContext) (x : FVarId) (name : Name)
    (type : Expr) :
    (Γ.push x name type).rename ρ = (Γ.rename ρ).push (ρ x) name (type.rename ρ) := rfl

/-- A renaming of variables keeps their names. -/
theorem findName?_rename (ρ : FVarId → FVarId) (Γ : LocalContext) (text : String) :
    (Γ.rename ρ).findName? text = (Γ.findName? text).map fun entry =>
      ⟨ρ entry.fvar, entry.name, entry.type.rename ρ⟩ := by
  unfold rename findName?
  rw [List.find?_map]
  rfl

end LocalContext

namespace ElabM

variable {α β : Type} {ρ : FVarId → FVarId} {k l : Nat} {P : α → Prop} {Q : β → Prop}
  {R : α → α} {S : β → β}

/-- Whether one computation has renamed results of another one.  For each result
that satisfies `P`, both draw equally many variables, at most `k`, and those that
one draws are the renamed ones of the other. -/
def Mirrors (ρ : FVarId → FVarId) (k : Nat) (P : α → Prop) (R : α → α) (m m' : ElabM α) : Prop :=
  ∀ ⦃s a t⦄, m.Returns s a t → P a → ∃ j ≤ k, t = s + .ofNat j ∧
    ∀ s', Tracks ρ s s' k → m'.Returns s' (R a) (s' + .ofNat j)

theorem Mirrors.imp {P' : α → Prop} {m m' : ElabM α} (h : Mirrors ρ k P R m m')
    (hP : ∀ a, P' a → P a) : Mirrors ρ k P' R m m' :=
  fun _ _ _ ha hPa => h ha (hP _ hPa)

theorem mirrors_pure (ρ : FVarId → FVarId) (P : α → Prop) (R : α → α) (a : α) :
    Mirrors ρ 0 P R (pure a) (pure (R a)) := by
  intro s b t h _
  obtain ⟨rfl, rfl⟩ := returns_pure.mp h
  exact ⟨0, Nat.le_refl 0, (UInt64.add_zero s).symm, fun s' _ =>
    returns_pure.mpr ⟨rfl, (UInt64.add_zero s').symm⟩⟩

/-- A second step may use of the result of the first what its own result says of
it. -/
theorem Mirrors.bind {m m' : ElabM α} {f f' : α → ElabM β} (hm : Mirrors ρ k P R m m')
    (hf : ∀ a, P a → Mirrors ρ l Q S (f a) (f' (R a)))
    (hP : ∀ ⦃s a t b u⦄, m.Returns s a t → (f a).Returns t b u → Q b → P a) :
    Mirrors ρ (k + l) Q S (m >>= f) (m' >>= f') := by
  intro s b u h hb
  obtain ⟨a, t, ha, hfa⟩ := returns_bind.mp h
  have hPa := hP ha hfa hb
  obtain ⟨i, hi, rfl, hm'⟩ := hm ha hPa
  obtain ⟨j, hj, rfl, hf'⟩ := hf a hPa hfa hb
  refine ⟨i + j, by omega, (add_ofNat_add s i j).symm, fun s' htracks => ?_⟩
  have hleft : Tracks ρ s s' k := htracks.left
  have hright : Tracks ρ (s + .ofNat i) (s' + .ofNat i) l :=
    Tracks.right fun n hn => htracks n (by omega)
  rw [add_ofNat_add]
  exact returns_bind.mpr ⟨R a, _, hm' s' hleft, hf' _ hright⟩

theorem mirrors_mapM {γ : Type} {count : γ → Nat} {f f' : γ → ElabM α} {bs : List γ}
    (h : ∀ b ∈ bs, Mirrors ρ (count b) P R (f b) (f' b)) :
    Mirrors ρ (bs.map count).sum (fun as => ∀ a ∈ as, P a) (List.map R) (bs.mapM f)
      (bs.mapM f') := by
  induction bs with
  | nil =>
    rw [List.mapM_nil, List.mapM_nil]
    exact mirrors_pure ρ _ (List.map R) []
  | cons b bs ih =>
    obtain ⟨hb, hbs⟩ := List.forall_mem_cons.mp h
    rw [List.mapM_cons, List.mapM_cons, List.map_cons, List.sum_cons]
    refine hb.bind (fun a ha => (ih hbs).bind (l := 0) (fun as has => ?_) ?_) ?_
    · exact mirrors_pure ρ _ (List.map R) (a :: as)
    · intro s as t r u _ hr hall
      obtain ⟨rfl, -⟩ := returns_pure.mp hr
      exact (List.forall_mem_cons.mp hall).2
    · intro s a t r u _ hr hall
      obtain ⟨as, v, -, hr⟩ := returns_bind.mp hr
      obtain ⟨rfl, -⟩ := returns_pure.mp hr
      exact (List.forall_mem_cons.mp hall).1

end ElabM

namespace Elaboration

open ElabM Pinpoint.Expr

theorem openable_of_operation {env : Environment} {fuel : Nat} {Γ : LocalContext}
    {op : Operator} {lhs rhs e : Expr} {s t : UInt64} (he : e.Openable)
    (h : (operation env fuel Γ op lhs rhs).Returns s e t) : lhs.Openable ∧ rhs.Openable := by
  rcases returns_operation.mp h with ⟨rfl, rfl, rfl⟩ | ⟨-, -, T, v, lvl, -, -, rfl⟩
  · exact ⟨he.app.1.app.2, he.app.2⟩
  · exact ⟨he.app.1.app.2, he.app.2⟩

theorem openable_of_openBinder {env : Environment} {fuel : Nat} {Γ : LocalContext}
    {mk : BinderInfo → Expr → Expr → Expr} (hmk : mk = .pi ∨ mk = .lam) {text : String}
    {T e : Expr} {inside : LocalContext → ElabM Expr} {s t : UInt64} (he : e.Openable)
    (h : (openBinder env fuel mk Γ text T inside).Returns s e t) : T.Openable := by
  obtain ⟨lvl, u, b, -, -, rfl⟩ := returns_openBinder.mp h
  rcases hmk with rfl | rfl
  · exact he.pi.1
  · exact he.lam.pi.1

section
variable {env : Environment} {fuel : Nat} {Γ : LocalContext} {ρ : FVarId → FVarId} {e T : Expr}
  {s t : UInt64}
variable (henv : env.Closed) (hfree : env.FVarFree) (hρ : Function.Injective ρ)
  (hinner : ∀ x : FVarId, ¬ x.IsOuter → ρ x = x)

include hfree hρ hinner

/-- A checker finds in the renamed context what it finds in the given one, since
it begins at the same place of its range in both. -/
theorem infers_rename (he : e.Openable)
    (h : (env.inferType fuel Γ e).Returns Checker.firstFresh T t) :
    (env.inferType fuel (Γ.rename ρ) (e.rename ρ)).Returns Checker.firstFresh (T.rename ρ) t := by
  rw [Environment.supply_of_returns h]
  have htracks := Environment.tracks_firstFresh hinner (Nat.le_of_lt (he.fits fuel))
  exact hfree.returns_rename hρ htracks h

theorem inferType_rename (he : e.Openable) (h : (inferType env fuel Γ e).Returns s T t) :
    t = s ∧ ∀ u, (inferType env fuel (Γ.rename ρ) (e.rename ρ)).Returns u (T.rename ρ) u := by
  obtain ⟨⟨v, hv⟩, rfl⟩ := returns_ofCheck.mp h
  exact ⟨rfl, fun u => returns_ofCheck.mpr ⟨⟨v, infers_rename hfree hρ hinner he hv⟩, rfl⟩⟩

theorem sortLevel_rename (he : e.Openable) {lvl : Level}
    (h : (sortLevel env fuel Γ e).Returns s lvl t) :
    t = s ∧ ∀ u, (sortLevel env fuel (Γ.rename ρ) (e.rename ρ)).Returns u lvl u := by
  obtain ⟨⟨v, hv⟩, rfl⟩ := returns_ofCheck.mp h
  obtain ⟨T, w, hT, hlvl⟩ := CheckM.returns_bind.mp hv
  obtain ⟨hwhnf, rfl⟩ := Environment.sortOfType_returns_iff.mp hlvl
  exact ⟨rfl, fun u => returns_ofCheck.mpr ⟨⟨w, CheckM.returns_bind.mpr ⟨_, _,
    infers_rename hfree hρ hinner he hT,
    Environment.sortOfType_returns_iff.mpr ⟨hfree.whnf_rename hwhnf, rfl⟩⟩⟩, rfl⟩⟩

theorem resolve_mirrors (text : String) {args : List Expr} (hargs : ∀ a ∈ args, a.Openable) :
    Mirrors ρ 0 (fun _ => True) (rename ρ) (resolve env fuel Γ text args)
      (resolve env fuel (Γ.rename ρ) text (args.map (rename ρ))) := by
  have hfound : (if text = "_" then none else (Γ.rename ρ).findName? text) =
      (if text = "_" then none else Γ.findName? text).map fun entry =>
        (⟨ρ entry.fvar, entry.name, entry.type.rename ρ⟩ : LocalEntry) := by
    rw [LocalContext.findName?_rename]
    split <;> rfl
  unfold resolve
  rw [hfound]
  cases (if text = "_" then none else Γ.findName? text) with
  | some entry => exact mirrors_pure ρ _ (rename ρ) (.fvar entry.fvar)
  | none =>
    dsimp only [Option.map_none]
    split
    · exact fun s e t h => absurd h not_returns_throw
    · rename_i c _
      intro s e t h _
      obtain ⟨solved, v, hsolved, hconst⟩ := returns_bind.mp h
      obtain ⟨rfl, hsolved'⟩ := returns_solveLevels_map c.levelParams c.type
        (fun a ha => sortLevel_rename hfree hρ hinner (hargs a ha)) hsolved
      obtain ⟨rfl, rfl⟩ := returns_pure.mp hconst
      exact ⟨0, Nat.le_refl 0, (UInt64.add_zero _).symm, fun s' _ => returns_bind.mpr
        ⟨solved, s', hsolved' s', returns_pure.mpr ⟨rfl, (UInt64.add_zero s').symm⟩⟩⟩

theorem operation_mirrors (op : Operator) {lhs rhs : Expr} (hlhs : lhs.Openable) :
    Mirrors ρ 0 Openable (rename ρ) (operation env fuel Γ op lhs rhs)
      (operation env fuel (Γ.rename ρ) op (lhs.rename ρ) (rhs.rename ρ)) := by
  intro s e t h he
  rcases returns_operation.mp h with ⟨rfl, rfl, rfl⟩ | ⟨hop, hcontains, T, v, lvl, hT, hl, rfl⟩
  · exact ⟨0, Nat.le_refl 0, (UInt64.add_zero _).symm, fun s' _ =>
      returns_operation.mpr (.inl ⟨rfl, rfl, (UInt64.add_zero s').symm⟩)⟩
  · have hTc : T.Openable := he.mkApp.2 T List.mem_cons_self
    obtain ⟨rfl, hT'⟩ := inferType_rename hfree hρ hinner hlhs hT
    obtain ⟨rfl, hl'⟩ := sortLevel_rename hfree hρ hinner hTc hl
    refine ⟨0, Nat.le_refl 0, (UInt64.add_zero _).symm, fun s' _ => ?_⟩
    have hzero : s' + .ofNat 0 = s' := UInt64.add_zero s'
    rw [hzero]
    exact returns_operation.mpr (.inr ⟨hop, hcontains, _, s', lvl, hT' s', hl' s', rfl⟩)

theorem openBinder_mirrors {mk : BinderInfo → Expr → Expr → Expr} (hmk : mk = .pi ∨ mk = .lam)
    (text : String) (hT : T.Openable) {l : Nat} {inside : LocalContext → ElabM Expr}
    (hscoped : ∀ x, (inside (Γ.push x (.ofString text) T)).Yields (Scoped 0))
    (hinside : ∀ x, Mirrors ρ l Openable (rename ρ) (inside (Γ.push x (.ofString text) T))
      (inside ((Γ.push x (.ofString text) T).rename ρ))) :
    Mirrors ρ (1 + l) Openable (rename ρ) (openBinder env fuel mk Γ text T inside)
      (openBinder env fuel mk (Γ.rename ρ) text (T.rename ρ) inside) := by
  intro s e t h he
  obtain ⟨lvl, u, b, hl, hb, rfl⟩ := returns_openBinder.mp h
  obtain ⟨rfl, hl'⟩ := sortLevel_rename hfree hρ hinner hT hl
  have hbopen : b.Openable := by
    rcases hmk with rfl | rfl
    · exact (he.abstractFVar (hscoped _ hb)).2
    · exact (he.lam.abstractFVar (hscoped _ hb)).2
  obtain ⟨j, hj, rfl, hb'⟩ := hinside ⟨u⟩ hb hbopen
  refine ⟨1 + j, by omega, (add_ofNat_add u 1 j).symm, fun s' htracks => ?_⟩
  -- the variable that is drawn first is the renamed one
  have hx : ρ ⟨u⟩ = ⟨s'⟩ := by simpa using htracks 0 (by omega)
  have hopened := hb' (s' + 1) htracks.right
  rw [LocalContext.rename_push, hx] at hopened
  rw [add_ofNat_add]
  refine returns_openBinder.mpr ⟨lvl, s', _, hl' s', hopened, ?_⟩
  rw [← hx, ← rename_abstractFVar hρ]
  rcases hmk with rfl | rfl <;> rfl

include henv

/-- A term is read in a renamed context as the renamed term. -/
theorem Reading.mirrors {k : Nat} {m : LocalContext → ElabM Expr} (h : Reading env fuel k m)
    (hΓ : Γ.Closed) : Mirrors ρ k Openable (rename ρ) (m Γ) (m (Γ.rename ρ)) := by
  induction h generalizing Γ with
  | atom he => rcases he with rfl | rfl | ⟨v, rfl⟩ <;> exact mirrors_pure ρ _ (rename ρ) _
  | name text _ ih =>
    -- The arguments are read first, and the head is resolved with what they came out as.
    refine (mirrors_mapM fun a ha => ih a ha hΓ).bind (l := 0) (fun as has => ?_) ?_
    · refine (resolve_mirrors hfree hρ hinner text has).bind (l := 0) (fun f _ => ?_)
        fun _ _ _ _ _ _ _ _ => trivial
      rw [← rename_mkApp]
      exact mirrors_pure ρ _ (rename ρ) _
    · intro s as t e u _ h he
      obtain ⟨f, v, -, h⟩ := returns_bind.mp h
      obtain ⟨rfl, -⟩ := returns_pure.mp h
      exact he.mkApp.2
  | app _ _ ih ihhead =>
    refine (mirrors_mapM fun a ha => ih a ha hΓ).bind (fun as has => ?_) ?_
    · refine (ihhead hΓ).bind (l := 0) (fun f _ => ?_) ?_
      · rw [← rename_mkApp]
        exact mirrors_pure ρ _ (rename ρ) _
      · intro s f t e u _ h he
        obtain ⟨rfl, -⟩ := returns_pure.mp h
        exact he.mkApp.1
    · intro s as t e u _ h he
      obtain ⟨f, v, -, h⟩ := returns_bind.mp h
      obtain ⟨rfl, -⟩ := returns_pure.mp h
      exact he.mkApp.2
  | arrow _ hcod ihdom ihcod =>
    have hscoped := hcod.scoped henv hΓ
    refine (ihdom hΓ).bind (fun d _ => (ihcod hΓ).bind (l := 0) (fun c _ => ?_) ?_) ?_
    · -- Renaming goes under the variable that an arrow leaves out.
      have harrow : Expr.arrow (d.rename ρ) (c.rename ρ) = (Expr.arrow d c).rename ρ := by
        rw [Expr.arrow, Expr.arrow, ← rename_lift, rename]
      rw [harrow]
      exact mirrors_pure ρ _ (rename ρ) _
    · intro s c t e u hc h he
      obtain ⟨rfl, -⟩ := returns_pure.mp h
      exact (he.arrow (hscoped hc)).2
    · intro s d t e u _ h he
      obtain ⟨c, v, hc, h⟩ := returns_bind.mp h
      obtain ⟨rfl, -⟩ := returns_pure.mp h
      exact (he.arrow (hscoped hc)).1
  | binder hmk text htype hinside ihtype ihinside =>
    rw [Nat.add_assoc]
    refine ((ihtype hΓ).imp fun T (hT : T.Openable ∧ T.Scoped 0) => hT.1).bind (fun T hT => ?_) ?_
    · -- The body is read in contexts that have been extended by the same variable.
      have hpush := fun x => hΓ.push x (.ofString text) hT.2
      exact openBinder_mirrors hfree hρ hinner hmk text hT.1
        (fun x => hinside.scoped henv (hpush x)) fun x => ihinside (hpush x)
    · intro s T t e u hT h he
      exact ⟨openable_of_openBinder hmk he h, htype.scoped henv hΓ hT⟩
  | operation op _ _ ihlhs ihrhs =>
    refine (ihlhs hΓ).bind (fun a ha => ((ihrhs hΓ).bind (l := 0) (fun b _ => ?_) ?_)) ?_
    · exact operation_mirrors hfree hρ hinner op ha
    · intro s b t e u _ h he
      exact (openable_of_operation he h).2
    · intro s a t e u _ h he
      obtain ⟨b, v, -, h⟩ := returns_bind.mp h
      exact (openable_of_operation he h).1

end

end Elaboration

/-! ### Another place in the range -/

/-- The variables below those that stand for opened binders. -/
def FVarId.IsLocal (x : FVarId) : Prop := x.id < Elaboration.firstBinder

instance FVarId.IsLocal.decidable : DecidablePred FVarId.IsLocal :=
  fun x => inferInstanceAs (Decidable (x.id < Elaboration.firstBinder))

/-- The variables for opened binders moved up by `k`, and around at the end of
their range. -/
def FVarId.turn (k : Nat) (x : FVarId) : FVarId :=
  if 2 ^ 61 ≤ x.id.toNat ∧ x.id.toNat < 2 ^ 62 then
    ⟨.ofNat (2 ^ 61 + (x.id.toNat - 2 ^ 61 + k) % 2 ^ 61)⟩
  else x

namespace FVarId

variable {x : FVarId}

theorem isLocal_iff : x.IsLocal ↔ x.id.toNat < 2 ^ 61 := by
  rw [IsLocal, UInt64.lt_iff_toNat_lt]
  rfl

theorem turn_of_isLocal (hx : x.IsLocal) (k : Nat) : x.turn k = x := by
  rw [isLocal_iff] at hx
  exact if_neg (by omega)

theorem turn_of_not_isOuter (hx : ¬ x.IsOuter) (k : Nat) : x.turn k = x := by
  rw [isOuter_iff] at hx
  exact if_neg (by omega)

theorem toNat_turn (k : Nat) (x : FVarId) : (x.turn k).id.toNat =
    if 2 ^ 61 ≤ x.id.toNat ∧ x.id.toNat < 2 ^ 62 then
      2 ^ 61 + (x.id.toNat - 2 ^ 61 + k) % 2 ^ 61
    else x.id.toNat := by
  unfold turn
  split
  · rw [UInt64.toNat_ofNat']
    exact Nat.mod_eq_of_lt (by omega)
  · rfl

theorem turn_injective (k : Nat) : Function.Injective (turn k) := by
  intro x y h
  have hid : (x.turn k).id.toNat = (y.turn k).id.toNat := by rw [h]
  rw [toNat_turn, toNat_turn] at hid
  have heq : x.id.toNat = y.id.toNat := by
    split at hid <;> split at hid <;> omega
  have : x.id = y.id := UInt64.toNat_inj.mp heq
  cases x
  cases y
  exact congrArg FVarId.mk this

end FVarId

theorem toNat_firstBinder : Elaboration.firstBinder.toNat = 2 ^ 61 := rfl

/-- Two stretches of the range are the same, but for a turn. -/
theorem tracks_turn {s s' : UInt64} {k : Nat} (hs : Elaboration.firstBinder ≤ s)
    (hs' : Elaboration.firstBinder ≤ s') (hk : s.toNat + k ≤ 2 ^ 62) (hk' : s'.toNat + k ≤ 2 ^ 62) :
    Tracks (FVarId.turn (s'.toNat + 2 ^ 61 - s.toNat)) s s' k := by
  intro i hi
  rw [UInt64.le_iff_toNat_le, toNat_firstBinder] at hs hs'
  have hdraw : ∀ u : UInt64, u.toNat + k ≤ 2 ^ 62 → (u + .ofNat i).toNat = u.toNat + i :=
    fun u hu => Supply.toNat_add_ofNat (by omega)
  unfold FVarId.turn
  rw [hdraw s hk, if_pos (by omega)]
  refine congrArg FVarId.mk (UInt64.toNat_inj.mp ?_)
  rw [UInt64.toNat_ofNat', hdraw s' hk']
  omega

namespace Elaboration

open ElabM Pinpoint.Expr

/-- What is read where binders were opened before is what is read anywhere else
in the range, as long as the range is long enough in both places. -/
theorem elaborate_returns_later {env : Environment} {fuel : Nat} {Γ : LocalContext} {e : Expr}
    {s s' u : UInt64} {t : Surface.Term} (henv : env.Closed) (hfree : env.FVarFree)
    (hΓ : Γ.FVarsIn FVarId.IsLocal) (hclosed : Γ.Closed) (hs : firstBinder ≤ s)
    (hs' : firstBinder ≤ s') (hroom : s.toNat + t.binderCount ≤ 2 ^ 62)
    (hroom' : s'.toNat + t.binderCount ≤ 2 ^ 62) (he : e.Openable)
    (h : (elaborate env fuel Γ t).Returns s e u) :
    ∃ u', (elaborate env fuel Γ t).Returns s' e u' := by
  obtain ⟨j, -, -, hrenamed⟩ := (elaborate_reading t).mirrors henv hfree
    (FVarId.turn_injective (s'.toNat + 2 ^ 61 - s.toNat))
    (fun x hx => FVarId.turn_of_not_isOuter hx _) hclosed h he
  have hlater := hrenamed s' (tracks_turn hs hs' hroom hroom')
  -- neither the context nor the term has variables that are turned
  have hfix : ∀ x : FVarId, x.IsLocal → x.turn (s'.toNat + 2 ^ 61 - s.toNat) = x :=
    fun x hx => FVarId.turn_of_isLocal hx _
  rw [LocalContext.rename_eq_self (hΓ.mono hfix),
    rename_eq_self ((elaborate_fvarsIn hfree.fvarsIn hΓ t h).mono hfix)] at hlater
  exact ⟨_, hlater⟩

end Elaboration

end Pinpoint
