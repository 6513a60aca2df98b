import Linearize.Model.Registry

/-!
# Linearize.Proofs.Lockstep

Encoders on two states at once. An encoder looks at its state only through the binary pool. If a
relation of states is kept by requests for binary variables, which are answered alike, then a whole
encoder call ends alike on both sides and keeps the relation, also where it stops in the middle.
-/

namespace Linearize

variable {σ τ α β : Type} {R : σ → τ → Prop}

/-- Two sessions have ended with the same result or the same fault, in related states. -/
inductive Alike (R : σ → τ → Prop) :
    EStateM.Result Fault σ α → EStateM.Result Fault τ α → Prop where
  | ok {a : α} {s : σ} {t : τ} : R s t → Alike R (.ok a s) (.ok a t)
  | error {e : Fault} {s : σ} {t : τ} : R s t → Alike R (.error e s) (.error e t)

/-- From related states the two sessions end alike. -/
def Lockstep (R : σ → τ → Prop) (x : Session σ α) (y : Session τ α) : Prop :=
  ∀ s t, R s t → Alike R (x s) (y t)

namespace Lockstep

variable {x : Session σ α} {y : Session τ α}

theorem pure (a : α) : Lockstep R (Pure.pure a) (Pure.pure a) := fun _ _ h => .ok h

theorem throw (e : Fault) :
    Lockstep R (MonadExcept.throw e : Session σ α) (MonadExcept.throw e : Session τ α) :=
  fun _ _ h => .error h

theorem bind {f : α → Session σ β} {g : α → Session τ β} (h : Lockstep R x y)
    (hfg : ∀ a, Lockstep R (f a) (g a)) : Lockstep R (x >>= f) (y >>= g) := by
  intro s t hst
  have hxy := h s t hst
  simp only [Bind.bind, EStateM.bind]
  generalize x s = r at hxy ⊢
  generalize y t = q at hxy ⊢
  cases hxy with
  | ok hst' => exact hfg _ _ _ hst'
  | error hst' => exact .error hst'

theorem computed (o : Option α) : Lockstep R (Session.computed o) (Session.computed o) := by
  cases o with
  | none => exact .throw .overflow
  | some a => exact .pure a

theorem part (xs : List α) (i : Nat) : Lockstep R (Session.part xs i) (Session.part xs i) := by
  simp only [Session.part]
  split
  · exact .pure _
  · exact .throw .outOfRange

theorem joined {first second : Session σ (Var × List Constraint)}
    {join : Var → Var → Session σ (Var × List Constraint)}
    {first' second' : Session τ (Var × List Constraint)}
    {join' : Var → Var → Session τ (Var × List Constraint)} (h₁ : Lockstep R first first')
    (h₂ : Lockstep R second second') (hjoin : ∀ u v, Lockstep R (join u v) (join' u v)) :
    Lockstep R (Session.joined first second join) (Session.joined first' second' join') :=
  h₁.bind fun _ => h₂.bind fun _ => (hjoin _ _).bind fun _ => .pure _

theorem indicated {x : Session σ (Var × List Constraint)} {y : Session τ (Var × List Constraint)}
    (h : Lockstep R x y) : Lockstep R (Session.indicated x) (Session.indicated y) :=
  h.bind fun _ => .pure _

theorem silent {x : Session σ (List Constraint)} {y : Session τ (List Constraint)}
    (h : Lockstep R x y) : Lockstep R (Session.silent x) (Session.silent y) :=
  h.bind fun _ => .pure _

theorem after (h : Lockstep R x y) {s : σ} {t : τ} (hst : R s t) : R (x.after s) (y.after t) := by
  have hxy := h s t hst
  simp only [Session.after]
  generalize x s = r at hxy ⊢
  generalize y t = q at hxy ⊢
  cases hxy with
  | ok hst' => exact hst'
  | error hst' => exact hst'

end Lockstep

variable [BinaryPool σ] [BinaryPool τ]

/-- Requests for a binary variable are answered alike in related states and keep them related. -/
def PoolsAgree (R : σ → τ → Prop) : Prop := ∀ k s t, R s t →
  (BinaryPool.request s k).2 = (BinaryPool.request t k).2 ∧
    R (BinaryPool.request s k).1 (BinaryPool.request t k).1

namespace PoolsAgree

theorem binary (hR : PoolsAgree R) (k : Key) :
    Lockstep R (Session.binary k) (Session.binary k) := by
  intro s t hst
  obtain ⟨hanswer, hst'⟩ := hR k s t hst
  rw [Session.binary, Session.binary, hanswer]
  exact .ok hst'

theorem indicate (hR : PoolsAgree R) (k : Key) (rows : Var → Option (List Constraint)) :
    Lockstep R (Session.indicate k rows) (Session.indicate k rows) :=
  (hR.binary k).bind fun _ => (Lockstep.computed _).bind fun _ => .pure _

theorem leq (hR : PoolsAgree R) (a b : Expr) (bigM : Int) :
    Lockstep R (Session.leq a b bigM) (Session.leq a b bigM) :=
  (Lockstep.computed _).bind fun _ => hR.indicate _ _

theorem geq (hR : PoolsAgree R) (a b : Expr) (bigM : Int) :
    Lockstep R (Session.geq a b bigM) (Session.geq a b bigM) :=
  (Lockstep.computed _).bind fun _ => hR.indicate _ _

theorem compare (hR : PoolsAgree R) (op : Comparison) (a b : Expr) (bigM : Int) :
    Lockstep R (Session.compare op a b bigM) (Session.compare op a b bigM) := by
  cases op with
  | less => exact hR.indicate _ _
  | leq => exact hR.leq a b bigM
  | greater => exact hR.indicate _ _
  | geq => exact hR.geq a b bigM
  | eq => exact .joined (hR.leq a b bigM) (hR.geq a b bigM) fun _ _ => hR.indicate _ _
  | neq => exact .joined (hR.indicate _ _) (hR.indicate _ _) fun _ _ => hR.indicate _ _

theorem branches (hR : PoolsAgree R) (conds : List Var) (bodies : List (List Constraint))
    (bigM : Int) (reach : Expr) (i : Nat) (rest : List Var) :
    Lockstep R (Session.branches conds bodies bigM reach i rest)
      (Session.branches conds bodies bigM reach i rest) := by
  induction rest generalizing reach i with
  | nil => exact .pure _
  | cons cond rest ih =>
    exact (hR.binary _).bind fun _ => (Lockstep.part _ _).bind fun _ =>
      (Lockstep.computed _).bind fun _ => (Lockstep.computed _).bind fun _ =>
        (ih _ _).bind fun _ => .pure _

theorem chain (hR : PoolsAgree R) (conds : List Var) (bodies : List (List Constraint))
    (otherwise : List Constraint) (bigM : Int) :
    Lockstep R (Session.chain conds bodies otherwise bigM)
      (Session.chain conds bodies otherwise bigM) := by
  simp only [Session.chain]
  split
  · exact .throw _
  · split
    · exact .pure _
    · exact (Lockstep.part _ _).bind fun _ => (Lockstep.part _ _).bind fun _ => .computed _
    · exact (hR.branches _ _ _ _ _ _).bind fun _ => (Lockstep.computed _).bind fun _ =>
        (Lockstep.computed _).bind fun _ => (Lockstep.computed _).bind fun _ => .pure _

/-- A request ends alike on both sides, whether it is answered, refused or overflows. -/
theorem inPlace (hR : PoolsAgree R) (r : Request) : Lockstep R r.inPlace r.inPlace := by
  cases r with
  | compare op a b bigM => exact (hR.compare op a b bigM).indicated
  | and2 a b => exact (hR.indicate _ _).indicated
  | or2 a b => exact (hR.indicate _ _).indicated
  | conjunction vs => exact (hR.indicate _ _).indicated
  | disjunction vs => exact (hR.indicate _ _).indicated
  | chain conds bodies otherwise bigM => exact (hR.chain conds bodies otherwise bigM).silent

end PoolsAgree

/-- What requests for binary variables keep, a whole encoder call keeps. -/
theorem Request.inPlace_keeps {P : σ → Prop}
    (hP : ∀ k s, P s → P (BinaryPool.request s k).1) (r : Request) {s : σ} (hs : P s) :
    P ((r.inPlace : Session σ _).after s) := by
  have hR : PoolsAgree fun s t : σ => s = t ∧ P t := by
    rintro k s t ⟨rfl, hs⟩
    exact ⟨rfl, rfl, hP k s hs⟩
  exact ((hR.inPlace r).after ⟨rfl, hs⟩).2

end Linearize
