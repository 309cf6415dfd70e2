/-
  Foundation/Tenants.lean --- clients that share a service without noticing.

  The clients of a service belong to tenants, and every call says whose it is.  If a
  tenant's calls only touch what the tenant can see, and nobody else's calls touch that,
  then what the tenant's clients do on the shared service they could as well do alone, with
  the same answers: the history of the shared service, without the calls of the others,
  is a history of the tenant's own.

      tagged ι I       calls of `I`, each with its tenant
      shared S start   the clients of all tenants, in every order
      alone S start    the clients of one tenant
      own i            what tenant `i` does in a history of all

  Nothing here mentions a particular program.
-/
import Kojin.Foundation.Machine

set_option autoImplicit false

namespace Kojin.Foundation

variable {I : Interface} {ι : Type}

/-- The calls of an interface, with the tenants they are of. -/
abbrev tagged (ι : Type) (I : Interface) : Interface := ⟨ι × I.Op, fun op => I.Res op.2⟩

namespace Prog

/-- A program of one tenant. -/
def tag {α : Type} (i : ι) (p : Prog I α) : Prog (tagged ι I) α :=
  p.interp fun op => perform (I := tagged ι I) (i, op)

theorem tag_call {α : Type} (i : ι) (op : I.Op) (k : I.Res op → Prog I α) :
    (call op k).tag i = call (I := tagged ι I) (i, op) fun r => (k r).tag i := rfl

/-- The next call of a tagged program. -/
theorem tag_eq_call {i j : ι} {p : Prog I Unit} {op : I.Op}
    {k : I.Res op → Prog (tagged ι I) Unit}
    (h : p.tag i = call (I := tagged ι I) (j, op) k) :
    i = j ∧ ∃ k', p = call op k' ∧ ∀ r, k r = (k' r).tag i := by
  cases p with
  | ret a => cases h
  | call op' k' =>
      rw [tag_call] at h
      cases h
      exact ⟨rfl, k', rfl, fun _ => rfl⟩

end Prog

/-- A protocol, whosever the calls are. -/
abbrev Protocol.ofAll (ι : Type) (P : Protocol I) : Protocol (tagged ι I) :=
  ⟨P.Stage, fun t op r t' => P.Step t op.2 r t', P.Final⟩

/-- A program follows it whoever it is of. -/
theorem Prog.Follows.tag {P : Protocol I} {p : Prog I Unit} {t : P.Stage} (h : p.Follows P t)
    (i : ι) : (p.tag i).Follows (P.ofAll ι) t := by
  induction p generalizing t with
  | ret a => exact h
  | call op k ih =>
      intro r
      obtain ⟨t', hstep, hk⟩ := h r
      exact ⟨t', hstep, ih r hk⟩

/-- A service that does not ask whose a call is. -/
def Service.openTo (ι : Type) (S : Service I) : Service (tagged ι I) where
  State := S.State
  Oracle := S.Oracle
  respond o s op := S.respond o s op.2

namespace Machine

variable {X : ι → Type}

/-- The clients of one tenant. -/
def alone {Y : Type} (S : Service I) (start : Y → Prog I Unit) : Machine I where
  toService := S
  Stimulus := Y
  accept y s := some (s, [start y])

/-- The clients of all tenants. -/
def shared (S : Service (tagged ι I)) (start : (i : ι) → X i → Prog I Unit) :
    Machine (tagged ι I) where
  toService := S
  Stimulus := (i : ι) × X i
  accept x s := some (s, [(start x.1 x.2).tag x.1])

variable [DecidableEq ι] {S : Service (tagged ι I)} {start : (i : ι) → X i → Prog I Unit}

/-- What one step is for a tenant. -/
def own (T : Service I) (i : ι) : (shared S start).Label → Option (alone T (start i)).Label
  | .call ⟨(j, op), r⟩ => if j = i then some (.call ⟨op, r⟩) else none
  | .env ⟨j, x⟩ => if h : j = i then some (.env (h ▸ x)) else none

theorem own_call_self (T : Service I) (i : ι) {op : I.Op} (r : I.Res op) :
    own T i (.call ⟨(i, op), r⟩ : (shared S start).Label) = some (.call ⟨op, r⟩) := if_pos rfl

theorem own_call_other (T : Service I) {i j : ι} (hj : j ≠ i) {op : I.Op} (r : I.Res op) :
    own T i (.call ⟨(j, op), r⟩ : (shared S start).Label) = none := if_neg hj

theorem own_env_self (T : Service I) (i : ι) (x : X i) :
    own T i (.env ⟨i, x⟩ : (shared S start).Label) = some (.env x) := dif_pos rfl

theorem own_env_other (T : Service I) {i j : ι} (hj : j ≠ i) (x : X j) :
    own T i (.env ⟨j, x⟩ : (shared S start).Label) = none := dif_neg hj

/-- The programs of a tenant. -/
def programsOf (i : ι) (ps : List (ι × Prog I Unit)) : List (Prog I Unit) :=
  (ps.filter fun p => p.1 = i).map Prod.snd

@[simp] theorem programsOf_nil (i : ι) : programsOf (I := I) i [] = [] := rfl

theorem programsOf_self (i : ι) (p : Prog I Unit) (ps₁ ps₂ : List (ι × Prog I Unit)) :
    programsOf i (ps₁ ++ (i, p) :: ps₂) = programsOf i ps₁ ++ p :: programsOf i ps₂ := by
  simp [programsOf]

theorem programsOf_other {i j : ι} (hj : j ≠ i) (p : Prog I Unit)
    (ps₁ ps₂ : List (ι × Prog I Unit)) :
    programsOf i (ps₁ ++ (j, p) :: ps₂) = programsOf i ps₁ ++ programsOf i ps₂ := by
  simp [programsOf, hj]

/-- The programs of the pool, each with its tenant. -/
structure Tenanted (C : ι → I.Op → Prop) (threads : List (Prog (tagged ι I) Unit))
    (ps : List (ι × Prog I Unit)) : Prop where
  eq : threads = ps.map fun p => p.2.tag p.1
  calls : ∀ p ∈ ps, p.2.Calls (C p.1)

omit [DecidableEq ι] in
/-- The program whose turn it is is some tenant's. -/
theorem Tenanted.turn {C : ι → I.Op → Prop} {before after : List (Prog (tagged ι I) Unit)}
    {j : ι} {op : I.Op} {k : I.Res op → Prog (tagged ι I) Unit} {ps : List (ι × Prog I Unit)}
    (h : Tenanted C (before ++ Prog.call (I := tagged ι I) (j, op) k :: after) ps) :
    ∃ ps₁ k' ps₂, ps = ps₁ ++ (j, Prog.call op k') :: ps₂ ∧ C j op ∧
      ∀ r, Tenanted C (before ++ k r :: after) (ps₁ ++ (j, k' r) :: ps₂) := by
  obtain ⟨heq, hcalls⟩ := h
  obtain ⟨ps₁, rest, rfl, rfl, hrest⟩ := List.map_eq_append_iff.mp heq.symm
  obtain ⟨⟨i, p⟩, ps₂, rfl, hp, rfl⟩ := List.map_eq_cons_iff.mp hrest
  obtain ⟨rfl, k', rfl, hk⟩ := Prog.tag_eq_call hp
  have hcall : (Prog.call op k').Calls (C i) :=
    hcalls _ (List.mem_append.mpr (.inr List.mem_cons_self))
  refine ⟨ps₁, k', ps₂, rfl, hcall.1, fun r => ⟨?_, fun p hp => ?_⟩⟩
  · rw [List.map_append, List.map_cons, hk r]
  · rcases List.mem_append.mp hp with hp | hp
    · exact hcalls p (List.mem_append.mpr (.inl hp))
    rcases List.mem_cons.mp hp with rfl | hp
    · exact hcall.2 r
    · exact hcalls p (List.mem_append.mpr (.inr (List.mem_cons_of_mem _ hp)))

omit [DecidableEq ι] in
/-- A program that is started. -/
theorem Tenanted.snoc {C : ι → I.Op → Prop} {threads : List (Prog (tagged ι I) Unit)}
    {ps : List (ι × Prog I Unit)} (h : Tenanted C threads ps) {j : ι} {p : Prog I Unit}
    (hp : p.Calls (C j)) : Tenanted C (threads ++ [p.tag j]) (ps ++ [(j, p)]) := by
  refine ⟨?_, fun q hq => ?_⟩
  · rw [List.map_append, ← h.eq]
    rfl
  · rcases List.mem_append.mp hq with hq | hq
    · exact h.calls q hq
    · rw [List.mem_singleton.mp hq]
      exact hp

/-- What `i` can see of the shared state, and what it makes of it: its own calls are
answered alike, and those of the others pass unseen. -/
structure Separate (S : Service (tagged ι I)) (T : Service I) (C : ι → I.Op → Prop) (i : ι)
    (sees : S.State → T.State → Prop) : Prop where
  own : ∀ o s op r s' t, C i op → sees s t → S.respond o s (i, op) = some (r, s') →
    ∃ o' t', T.respond o' t op = some (r, t') ∧ sees s' t'
  other : ∀ o s j op r s' t, j ≠ i → C j op → sees s t → S.respond o s (j, op) = some (r, s') →
    sees s' t

/-- A tenant's history.  What a tenant's clients do on the shared service is a
history of theirs alone, and what they go on to do is the same. -/
theorem Reach.tenant {T : Service I} {C : ι → I.Op → Prop} {i : ι}
    {sees : S.State → T.State → Prop} (hstart : ∀ j x, (start j x).Calls (C j))
    (hsep : Separate S T C i sees) {s₀ : S.State} {t₀ : T.State} (h₀ : sees s₀ t₀)
    {tr : List (shared S start).Label} {c : (shared S start).Config}
    (h : (shared S start).Reach ⟨s₀, []⟩ tr c) :
    ∃ t ps, (alone T (start i)).Reach ⟨t₀, []⟩ (tr.filterMap (own T i)) ⟨t, programsOf i ps⟩ ∧
      sees c.state t ∧ Tenanted C c.threads ps := by
  induction h with
  | start => exact ⟨t₀, [], .start, h₀, rfl, fun p hp => (List.not_mem_nil hp).elim⟩
  | step _ hstep ih =>
      obtain ⟨t, ps, hreach, hsees, htenanted⟩ := ih
      cases hstep with
      | @call o s s' op r k before after hr =>
          obtain ⟨j, op⟩ := op
          obtain ⟨ps₁, k', ps₂, rfl, hop, hnext⟩ := htenanted.turn
          by_cases hj : j = i
          · subst hj
            obtain ⟨o', t', hr', hsees'⟩ := hsep.own o s op r s' t hop hsees hr
            refine ⟨t', _, ?_, hsees', hnext r⟩
            rw [filterMap_snoc, own_call_self, programsOf_self]
            rw [programsOf_self] at hreach
            exact .step hreach (.call (M := alone T (start j)) o' k' _ _ hr')
          · refine ⟨t, _, ?_, hsep.other o s j op r s' t hj hop hsees hr, hnext r⟩
            rw [filterMap_snoc_none (own_call_other T hj r), programsOf_other hj]
            rw [programsOf_other hj] at hreach
            exact hreach
      | @env x s s' threads new haccept =>
          obtain ⟨j, x⟩ := x
          cases haccept
          refine ⟨t, _, ?_, hsees, htenanted.snoc (hstart j x)⟩
          by_cases hj : j = i
          · subst hj
            rw [filterMap_snoc, own_env_self, programsOf_self]
            have hstep := Step.env (M := alone T (start j)) x (s := t) (programsOf j ps) rfl
            exact .step hreach hstep
          · have hsame := programsOf_other hj (start j x) ps []
            rw [programsOf_nil, List.append_nil] at hsame
            rw [filterMap_snoc_none (own_env_other T hj x), hsame]
            exact hreach

end Machine

end Kojin.Foundation
