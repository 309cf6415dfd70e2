/-
  Core/Metrics.lean --- what the counters of `MetricsMiddleware` add up to
  (`kojin-core`: `middleware/metrics.rs`).

  The middleware stands at one place of the list, behind `ahead` and before
  `behind`.  An execution that has passed its `before` hook and has not yet run its
  `after` or `on_error` hook owes the counters one outcome, and one that panics there
  never pays it:

      started = succeeded + failed + owed + abandoned

  The `on_error` hooks run whichever `before` hook has failed.  One that fails in
  `ahead` therefore counts a failure that was never counted as a start.
-/
import Kojin.Core.Middleware
import Kojin.Core.MemorySystem
import Kojin.Core.MemoryResultBackend
import Kojin.Core.Locks

set_option autoImplicit false

namespace Kojin.Core

open Kojin.Foundation

/-! ## Spawned executions -/

section Spawned

variable (mw : Middleware) (k : Nat) (service : Service traits) (codec : Codec)

/-- Spawned executions of any messages by workers of the fleet, whose `k`-th middleware is `mw`.
A handler or a hook of another middleware may panic. -/
def spawnedPool (crew : Fleet) : Machine (spawned traits) where
  State := service.State × mw.State
  Oracle := service.Oracle × Bool
  respond o s
    | .dropPermit => some ((), s)
    | .call op =>
        if o.2 && op.mayPanic && (mw.answer k op s.2).isNone then some (none, s)
        else ((mw.mount k service).respond o.1 s op).map fun p => (some p.1, p.2)
  Stimulus := Execution
  accept x s :=
    if crew.Has x.worker then some (s, [spawn (executeTask x.worker codec x.message)]) else none

variable {mw k service codec} {crew : Fleet}

/-- The stage a spawned execution starts in. -/
def Execution.stages {State : Type} (x : Execution) (_ : State) : List (TaskStage Phase) :=
  [.live (.entering x.message)]

theorem spawnedPool_entry (x : Execution) (s s' : (spawnedPool mw k service codec crew).State)
    (new : List (Prog (spawned traits) Unit))
    (h : (spawnedPool mw k service codec crew).accept x s = some (s', new)) :
    List.Forall₂ (Prog.Follows (tasks (pipeline crew))) new (x.stages s) := by
  simp only [spawnedPool] at h
  split at h
  · rename_i hw
    cases h
    exact .cons (follows_spawn (executeTask_hooks hw codec x.message)) .nil
  · cases h

/-- No stimulus changes the shared state. -/
theorem spawnedPool_accept {x : Execution} {s s' : (spawnedPool mw k service codec crew).State}
    {new : List (Prog (spawned traits) Unit)}
    (h : (spawnedPool mw k service codec crew).accept x s = some (s', new)) : s' = s := by
  simp only [spawnedPool] at h
  split at h
  · cases h
    rfl
  · cases h

/-- A call panics, and nothing has happened; or it is a hook of the middleware, or is left to the
service. -/
theorem spawnedPool_call {o : service.Oracle × Bool}
    {s s' : (spawnedPool mw k service codec crew).State} {op : traits.Op}
    {r : Option (traits.Res op)}
    (h : (spawnedPool mw k service codec crew).respond o s (.call op) = some (r, s')) :
    (r = none ∧ s' = s ∧ op.mayPanic = true ∧ mw.answer k op s.2 = none) ∨
      ∃ a, r = some a ∧
        (mw.answer k op s.2 = some (a, s'.2) ∨ mw.answer k op s.2 = none ∧ s'.2 = s.2) := by
  simp only [spawnedPool] at h
  split at h
  · rename_i hpanic
    cases h
    simp only [Bool.and_eq_true, Option.isNone_iff_eq_none] at hpanic
    exact .inl ⟨rfl, rfl, hpanic.1.2, hpanic.2⟩
  · obtain ⟨p, hp, heq⟩ := Option.map_eq_some_iff.mp h
    cases heq
    rcases Middleware.mount_cases hp with ⟨hsome, -⟩ | ⟨hnone, -, hsame⟩
    · exact .inr ⟨p.1, rfl, .inl hsome⟩
    · exact .inr ⟨p.1, rfl, .inr ⟨hnone, hsame⟩⟩

end Spawned

/-- A call of the execution that has returned, of this kind. -/
def onReturn (f : Event traits → Bool) : Event (spawned traits) → Bool
  | ⟨.call op, some r⟩ => f ⟨op, r⟩
  | _ => false

/-- The execution of this task has neither returned nor panicked. -/
def inFlight : Prog (spawned traits) Unit → Bool
  | .call (.call _) _ => true
  | _ => false

/-! ## The condition -/

section Condition

variable (service : Service traits) (codec : Codec) (ahead : List Nat) (k : Nat)
  (behind : List Nat)

/-- Executions whose `k`-th middleware counts them. -/
abbrev metered : Machine (spawned traits) :=
  spawnedPool metricsMiddleware k service codec ⟨ahead ++ k :: behind, []⟩

variable {service codec ahead k behind}

/-- The counters. -/
def metrics (c : (metered service codec ahead k behind).Config) : MetricsInner := c.state.2

/-- Outcomes never outnumber starts. -/
def MetricsInner.Within (q : MetricsInner) : Prop :=
  q.tasksSucceeded.toNat + q.tasksFailed.toNat ≤ q.tasksStarted.toNat

/-- Every start has had its outcome. -/
def MetricsInner.Even (q : MetricsInner) : Prop :=
  q.tasksSucceeded.toNat + q.tasksFailed.toNat = q.tasksStarted.toNat

instance (q : MetricsInner) : Decidable q.Within := inferInstanceAs (Decidable (_ ≤ _))

instance (q : MetricsInner) : Decidable q.Even := inferInstanceAs (Decidable (_ = _))

/-- A `before` hook of one of these middlewares fails. -/
def rejects (mws : List Nat) : Event traits → Bool
  | ⟨.runtime (.before mw _), .error _⟩ => decide (mw ∈ mws)
  | _ => false

/-- The `before` hook of this middleware runs. -/
def starts (k : Nat) : Event traits → Bool
  | ⟨.runtime (.before mw _), _⟩ => mw == k
  | _ => false

/-- A panic between the hooks of the metrics: in the handler, in a hook behind them on the way to
it, or in one ahead of them on the way back. -/
def abandons (ahead behind : List Nat) : Event (spawned traits) → Bool
  | ⟨.call (.runtime (.before mw _)), none⟩ => decide (mw ∈ behind)
  | ⟨.call (.runtime (.handle _ _ _)), none⟩ => true
  | ⟨.call (.runtime (.after mw _ _)), none⟩ => decide (mw ∈ ahead)
  | ⟨.call (.runtime (.onError mw _ _)), none⟩ => decide (mw ∈ ahead)
  | _ => false

/-- A call that returns is no panic. -/
theorem abandons_some (ahead behind : List Nat) (op : traits.Op) (r : traits.Res op) :
    abandons ahead behind ⟨.call op, some r⟩ = false := by
  rcases op with op | op | op
  · cases op <;> rfl
  · rfl
  · rfl

/-- A call that may panic may also return. -/
theorem nonempty_of_mayPanic {op : traits.Op} (h : op.mayPanic = true) :
    Nonempty (traits.Res op) := by
  rcases op with op | op | op
  · exact ⟨stillRuntime op⟩
  · cases h
  · cases h

/-- No call after the acknowledgement is a `before` hook. -/
theorem starts_followsUp {op : traits.Op} (h : FollowsUp op) (k : Nat) (r : traits.Res op) :
    starts k ⟨op, r⟩ = false := by
  rcases op with op | op | op
  · cases op <;> first | rfl | exact h.elim
  · rfl
  · rfl

end Condition

/-! ## What one execution owes -/

/-- One outcome, between the `before` hook of the metrics and its `after` or
`on_error` hook. -/
def Phase.owes (k : Nat) : Phase → Nat
  | .checking _ rest => 1 - rest.count k
  | .rejected _ _ => 1
  | .erred _ _ => 1
  | .failing _ _ rest => rest.count k
  | .succeeding _ _ rest => rest.count k
  | _ => 0

/-- The hooks that are left are the last of the list. -/
def Phase.Sound (mws : List Nat) : Phase → Prop
  | .checking _ rest => rest <:+ mws
  | .failing _ _ rest => rest <:+ mws
  | .succeeding _ _ rest => rest <:+ mws
  | _ => True

theorem Phase.Step.sound {crew : Fleet} {t t' : Phase} {op : traits.Op} {r : traits.Res op}
    (h : Phase.Step crew t op r t') (hsound : t.Sound crew.middlewares) :
    t'.Sound crew.middlewares := by
  cases h with
  | note => exact hsound
  | enter | rejection | handled | failure | unknown => exact List.suffix_rfl
  | pass _ mw rest => exact (List.suffix_cons mw rest).trans hsound
  | onError _ _ mw rest => exact (List.suffix_cons mw rest).trans hsound
  | after _ _ mw rest => exact (List.suffix_cons mw rest).trans hsound
  | _ => trivial

section Owed

variable {ahead behind : List Nat} {k : Nat}

theorem count_middlewares (hahead : k ∉ ahead) (hbehind : k ∉ behind) :
    (ahead ++ k :: behind).count k = 1 := by
  rw [List.count_append, List.count_cons_self, List.count_eq_zero.mpr hahead,
    List.count_eq_zero.mpr hbehind]

/-- Whatever hooks are left, the metrics is among them at most once. -/
theorem count_le_one (hahead : k ∉ ahead) (hbehind : k ∉ behind) {rest : List Nat}
    (h : rest <:+ ahead ++ k :: behind) : rest.count k ≤ 1 := by
  rw [← count_middlewares hahead hbehind]
  exact h.sublist.count_le k

/-- A hook with the metrics still behind it stands ahead of the metrics. -/
theorem mem_ahead (hbehind : k ∉ behind) {mw : Nat} {rest : List Nat} (hk : k ∈ rest)
    (h : mw :: rest <:+ ahead ++ k :: behind) : mw ∈ ahead := by
  obtain ⟨done, hdone⟩ := h
  rcases List.append_eq_append_iff.mp hdone with ⟨gap, hgap, hrest⟩ | ⟨gap, -, hrest⟩
  · cases gap with
    | nil =>
        cases hrest
        exact absurd hk hbehind
    | cons x gap =>
        cases hrest
        rw [hgap]
        exact List.mem_append.mpr (.inr List.mem_cons_self)
  · cases gap with
    | nil =>
        cases hrest
        exact absurd hk hbehind
    | cons x gap =>
        cases hrest
        have hmem : k ∈ gap ++ mw :: rest := by simp [hk]
        exact absurd hmem hbehind

/-- A hook behind the metrics, when the metrics is not behind it. -/
theorem mem_behind {mw : Nat} {rest : List Nat} (hmw : mw ≠ k) (hk : k ∉ rest)
    (h : mw :: rest <:+ ahead ++ k :: behind) : mw ∈ behind := by
  obtain ⟨done, hdone⟩ := h
  rcases List.append_eq_append_iff.mp hdone with ⟨gap, -, hrest⟩ | ⟨gap, -, hrest⟩
  · have hmem : k ∈ mw :: rest := by
      rw [hrest]
      exact List.mem_append.mpr (.inr List.mem_cons_self)
    exact ((List.mem_cons.mp hmem).elim (fun heq => hmw heq.symm) hk).elim
  · cases gap with
    | nil =>
        cases hrest
        exact absurd rfl hmw
    | cons x gap =>
        cases hrest
        exact List.mem_append.mpr (.inr List.mem_cons_self)

/-- What a call does to the counters, and to the outcomes that its execution owes them; it may be
the `before` hook that counts it. -/
inductive Owed (q : MetricsInner) (n : Nat) (start : Bool) : MetricsInner → Nat → Prop where
  | same {n' : Nat} : start = false → n' = n → Owed q n start q n'
  | started {n' : Nat} : start = true → n' = n + 1 → Owed q n start q.before n'
  | succeeded {n' : Nat} : start = false → n = n' + 1 → Owed q n start q.after n'
  | failed {n' : Nat} : start = false → n = n' + 1 → Owed q n start q.onError n'

/-- A hook that belongs to another middleware leaves the metrics where it is. -/
theorem count_cons_other {mw : Nat} (h : mw ≠ k) (rest : List Nat) :
    (mw :: rest).count k = rest.count k :=
  List.count_cons_of_ne h

/-- If a call of an execution is not a failing hook ahead of the metrics, what the counters gain is
what the execution comes to owe less. -/
theorem owed_step (hahead : k ∉ ahead) (hbehind : k ∉ behind) {q q' : MetricsInner}
    {t t' : Phase} {op : traits.Op} {r : traits.Res op}
    (hstep : Phase.Step ⟨ahead ++ k :: behind, []⟩ t op r t')
    (hsound : t.Sound (ahead ++ k :: behind))
    (hgood : rejects ahead ⟨op, r⟩ = false)
    (hq : metricsMiddleware.answer k op q = some (r, q') ∨
      metricsMiddleware.answer k op q = none ∧ q' = q) :
    Owed q (t.owes k) (starts k ⟨op, r⟩) q' (t'.owes k) := by
  have hone := count_middlewares hahead hbehind
  have hquiet : metricsMiddleware.answer k op q = none → q' = q := Middleware.unanswered hq
  cases hstep with
  | pass m mw rest =>
      have hle := count_le_one hahead hbehind hsound
      by_cases hmw : mw = k
      · subst hmw
        cases Middleware.answered hq (if_pos rfl)
        refine .started (by simp [starts]) ?_
        simp only [Phase.owes, List.count_cons_self] at hle ⊢
        omega
      · obtain rfl := hquiet (by simp [Middleware.answer, hmw])
        exact .same (by simp [starts, hmw])
          (by rw [Phase.owes, Phase.owes, count_cons_other hmw])
  | reject m mw rest e =>
      have hmw : mw ≠ k := by
        rintro rfl
        cases Middleware.answered hq (if_pos rfl)
      obtain rfl := hquiet (by simp [Middleware.answer, hmw])
      have hpassed : k ∉ rest := by
        intro hk
        have hmem := mem_ahead hbehind hk hsound
        simp [rejects, hmem] at hgood
      refine .same (by simp [starts, hmw]) ?_
      rw [Phase.owes, Phase.owes, count_cons_other hmw, List.count_eq_zero.mpr hpassed]
  | onError m e mw rest r =>
      by_cases hmw : mw = k
      · subst hmw
        cases Middleware.answered hq (if_pos rfl)
        exact .failed rfl (by simp [Phase.owes])
      · obtain rfl := hquiet (by simp [Middleware.answer, hmw])
        exact .same rfl (by rw [Phase.owes, Phase.owes, count_cons_other hmw])
  | after m result mw rest r =>
      by_cases hmw : mw = k
      · subst hmw
        cases Middleware.answered hq (if_pos rfl)
        exact .succeeded rfl (by simp [Phase.owes])
      · obtain rfl := hquiet (by simp [Middleware.answer, hmw])
        exact .same rfl (by rw [Phase.owes, Phase.owes, count_cons_other hmw])
  | enter m =>
      obtain rfl := hquiet rfl
      exact .same rfl (by simp [Phase.owes, hone])
  | handled m result =>
      obtain rfl := hquiet rfl
      exact .same rfl (by simp [Phase.owes, hone])
  | rejection m e =>
      obtain rfl := hquiet rfl
      exact .same rfl (by simp [Phase.owes, hone])
  | failure m e =>
      obtain rfl := hquiet rfl
      exact .same rfl (by simp [Phase.owes, hone])
  | unknown e hunknown =>
      obtain rfl := hquiet rfl
      exact .same rfl (by simp [Phase.owes, hone])
  | followUp m result r hop =>
      obtain rfl := hquiet (Middleware.answer_followsUp hop metricsMiddleware k q)
      exact .same (starts_followsUp hop k r) rfl
  | _ =>
      obtain rfl := hquiet rfl
      exact .same rfl rfl

/-- An execution that panics elsewhere owes nothing. -/
theorem owes_of_panic (hahead : k ∉ ahead) (hbehind : k ∉ behind) {q : MetricsInner}
    {t t' : Phase} {op : traits.Op} {r : traits.Res op}
    (hstep : Phase.Step ⟨ahead ++ k :: behind, []⟩ t op r t')
    (hsound : t.Sound (ahead ++ k :: behind)) (hmay : op.mayPanic = true)
    (hother : metricsMiddleware.answer k op q = none)
    (hharmless : abandons ahead behind ⟨.call op, none⟩ = false) : t.owes k = 0 := by
  cases hstep with
  | pass m mw rest | reject m mw rest e =>
      have hmw : mw ≠ k := by
        rintro rfl
        simp [Middleware.answer] at hother
      have hle := count_le_one hahead hbehind hsound
      have hk : k ∈ rest := by
        by_contra hk
        have hmem := mem_behind hmw hk hsound
        simp [abandons, hmem] at hharmless
      rw [count_cons_other hmw] at hle
      have hpos := List.count_pos_iff.mpr hk
      rw [Phase.owes, count_cons_other hmw]
      omega
  | onError m e mw rest | after m result mw rest =>
      have hmw : mw ≠ k := by
        rintro rfl
        simp [Middleware.answer] at hother
      have hk : k ∉ rest := by
        intro hk
        have hmem := mem_ahead hbehind hk hsound
        simp [abandons, hmem] at hharmless
      rw [Phase.owes, count_cons_other hmw, List.count_eq_zero.mpr hk]
  | handled | err => cases hharmless
  | followUp m result r hop =>
      rcases op with op | op | op
      · cases op <;> first | exact hop.elim | cases hmay
      · cases hmay
      · cases hmay
  | _ => cases hmay

/-- An execution owes one outcome at most. -/
theorem owes_le_one (hahead : k ∉ ahead) (hbehind : k ∉ behind) {t : Phase}
    (hsound : t.Sound (ahead ++ k :: behind)) : t.owes k ≤ 1 := by
  cases t with
  | checking m rest => exact Nat.sub_le 1 _
  | failing m e rest => exact count_le_one hahead hbehind hsound
  | succeeding m result rest => exact count_le_one hahead hbehind hsound
  | rejected m e => exact Nat.le_refl 1
  | erred m e => exact Nat.le_refl 1
  | _ => exact Nat.zero_le 1

end Owed

/-! ## The invariant -/

section Balance

variable {service : Service traits} {codec : Codec} {ahead behind : List Nat} {k : Nat}

/-- What a task owes: nothing after a panic. -/
def TaskStage.owes (k : Nat) : TaskStage Phase → Nat
  | .live t => t.owes k
  | _ => 0

/-- The hooks that are left to a task are the last of the list. -/
def TaskStage.Sound (mws : List Nat) : TaskStage Phase → Prop
  | .live t => t.Sound mws
  | _ => True

/-- What a pool of tasks owes. -/
def owed (k : Nat) (stages : List (TaskStage Phase)) : Nat := (stages.map (TaskStage.owes k)).sum

theorem owed_split (before after : List (TaskStage Phase)) (u : TaskStage Phase) :
    owed k (before ++ u :: after) = owed k before + u.owes k + owed k after := by
  simp [owed, Nat.add_assoc]

/-- Every start has had its outcome, is owed one, or has been abandoned. -/
structure Metered (ahead behind : List Nat) (k started abandoned : Nat) (q : MetricsInner)
    (stages : List (TaskStage Phase)) : Prop where
  counted : q.tasksStarted.toNat = started
  balance : ∃ lost ≤ abandoned, q.tasksStarted.toNat =
    q.tasksSucceeded.toNat + q.tasksFailed.toNat + owed k stages + lost
  sound : ∀ u ∈ stages, u.Sound (ahead ++ k :: behind)

/-- A counter that stays below its bound counts. -/
theorem toNat_succ {x : UInt64} (h : x.toNat + 1 < 2 ^ 64) : (x + 1).toNat = x.toNat + 1 := by
  rw [UInt64.toNat_add]
  exact Nat.mod_eq_of_lt h

section Step

variable {started abandoned : Nat} {q q' : MetricsInner} {u u' : TaskStage Phase}
  {before after : List (TaskStage Phase)}

theorem Metered.sound_set (h : Metered ahead behind k started abandoned q (before ++ u :: after))
    (hsound : u'.Sound (ahead ++ k :: behind)) :
    ∀ v ∈ before ++ u' :: after, v.Sound (ahead ++ k :: behind) := by
  intro v hv
  rcases List.mem_append.mp hv with hv | hv
  · exact h.sound v (List.mem_append.mpr (.inl hv))
  · rcases List.mem_cons.mp hv with rfl | hv
    · exact hsound
    · exact h.sound v (List.mem_append.mpr (.inr (List.mem_cons_of_mem u hv)))

/-- One call of one execution keeps the balance. -/
theorem Metered.call (h : Metered ahead behind k started abandoned q (before ++ u :: after))
    {start : Bool} (howed : Owed q (u.owes k) start q' (u'.owes k))
    (hroom : started + start.toNat < 2 ^ 64) (hsound : u'.Sound (ahead ++ k :: behind)) :
    Metered ahead behind k (started + start.toNat) abandoned q' (before ++ u' :: after) := by
  have hcounted := h.counted
  obtain ⟨lost, hlost, hbalance⟩ := h.balance
  rw [owed_split] at hbalance
  have hstages := h.sound_set hsound
  cases howed with
  | same hs heq =>
      refine ⟨by simpa [hs] using hcounted, ⟨lost, hlost, ?_⟩, hstages⟩
      rw [owed_split]
      omega
  | started hs heq =>
      simp only [hs, Bool.toNat_true] at hroom ⊢
      have hsucc := @toNat_succ q.tasksStarted (by omega)
      refine ⟨by rw [MetricsInner.before, hsucc, hcounted], ⟨lost, hlost, ?_⟩, hstages⟩
      rw [owed_split]
      simp only [MetricsInner.before, hsucc]
      omega
  | succeeded hs heq =>
      have hsucc := @toNat_succ q.tasksSucceeded (by omega)
      refine ⟨by simpa [hs, MetricsInner.after] using hcounted, ⟨lost, hlost, ?_⟩, hstages⟩
      rw [owed_split]
      simp only [MetricsInner.after, hsucc]
      omega
  | failed hs heq =>
      have hfail := @toNat_succ q.tasksFailed (by omega)
      refine ⟨by simpa [hs, MetricsInner.onError] using hcounted, ⟨lost, hlost, ?_⟩, hstages⟩
      rw [owed_split]
      simp only [MetricsInner.onError, hfail]
      omega

/-- A task that is over owes nothing any more; what it owed is lost if that is a panic between the
hooks of the metrics. -/
theorem Metered.stop (h : Metered ahead behind k started abandoned q (before ++ u :: after))
    {panics : Bool} (howes : u.owes k ≤ panics.toNat) (hover : u'.owes k = 0)
    (hsound : u'.Sound (ahead ++ k :: behind)) :
    Metered ahead behind k started (abandoned + panics.toNat) q (before ++ u' :: after) := by
  obtain ⟨lost, hlost, hbalance⟩ := h.balance
  rw [owed_split] at hbalance
  refine ⟨h.counted, ⟨lost + u.owes k, Nat.add_le_add hlost howes, ?_⟩, h.sound_set hsound⟩
  rw [owed_split, hover]
  omega

/-- An execution begins without owing anything. -/
theorem Metered.begin {stages : List (TaskStage Phase)}
    (h : Metered ahead behind k started abandoned q stages) (m : TaskMessage) :
    Metered ahead behind k started abandoned q (stages ++ [.live (.entering m)]) := by
  refine ⟨h.counted, ?_, ?_⟩
  · obtain ⟨lost, hlost, hbalance⟩ := h.balance
    refine ⟨lost, hlost, ?_⟩
    rw [hbalance, owed_split]
    simp [owed, TaskStage.owes, Phase.owes]
  · intro u hu
    rcases List.mem_append.mp hu with hu | hu
    · exact h.sound u hu
    · obtain rfl := List.mem_singleton.mp hu
      trivial

end Step

/-- Executions that may stop owe nothing. -/
theorem Phase.Final.owes {t : Phase} (h : t.Final) : t.owes k = 0 := by
  cases t <;> first | rfl | exact h.elim

/-- The balance along every history without a failing hook ahead of the metrics. -/
theorem metered_of_reach (hahead : k ∉ ahead) (hbehind : k ∉ behind) {s₀ : service.State}
    {tr : List (metered service codec ahead k behind).Label}
    {c : Machine.Staged (metered service codec ahead k behind)
      (tasks (pipeline ⟨ahead ++ k :: behind, []⟩))}
    (h : Machine.StagedReach (tasks (pipeline ⟨ahead ++ k :: behind, []⟩)) Execution.stages
      ⟨(s₀, MetricsInner.new), []⟩ tr c)
    (hquiet : Machine.happened (onReturn (rejects ahead)) tr = 0)
    (hroom : Machine.happened (onReturn (starts k)) tr < 2 ^ 64) :
    Metered ahead behind k (Machine.happened (onReturn (starts k)) tr)
      (Machine.happened (abandons ahead behind) tr) c.state.2 c.stages := by
  induction h with
  | start => exact ⟨rfl, ⟨0, Nat.le_refl 0, rfl⟩, fun _ hu => (List.not_mem_nil hu).elim⟩
  | step _ hstep ih =>
      rw [Machine.happened_snoc] at hquiet hroom ⊢
      rw [Machine.happened_snoc]
      have ih := ih (by omega) (by omega)
      cases hstep with
      | @call o s s' op r u u' before after hr hp =>
          have hsound := ih.sound u (List.mem_append.mpr (.inr List.mem_cons_self))
          cases hp with
          | @call t t' op r hphase =>
              rcases spawnedPool_call hr with ⟨hnone, -⟩ | ⟨a, ha, hq⟩
              · cases hnone
              · obtain rfl := Option.some.inj ha
                have hgood : rejects ahead ⟨op, r⟩ = false := by
                  cases hrejects : rejects ahead ⟨op, r⟩
                  · rfl
                  · simp [Machine.happens, onReturn, hrejects] at hquiet
                have howed : Owed s.2 ((TaskStage.live t).owes k) (starts k ⟨op, r⟩) s'.2
                    ((TaskStage.live t').owes k) :=
                  owed_step hahead hbehind hphase hsound hgood hq
                have hnone : Machine.happens (abandons ahead behind)
                    (.call ⟨.call op, some r⟩ : (metered service codec ahead k behind).Label) =
                    false := abandons_some ahead behind op r
                rw [hnone]
                exact ih.call howed hroom (hphase.sound hsound)
          | @panic t op hphase =>
              rcases spawnedPool_call hr with ⟨-, rfl, hmay, hother⟩ | ⟨a, ha, -⟩
              · have howes : (TaskStage.live t).owes k ≤
                    (abandons ahead behind ⟨.call op, none⟩).toNat := by
                  cases habandons : abandons ahead behind ⟨.call op, none⟩ with
                  | true => exact owes_le_one hahead hbehind hsound
                  | false =>
                      obtain ⟨r⟩ := nonempty_of_mayPanic hmay
                      obtain ⟨t', ht'⟩ := hphase r
                      exact (owes_of_panic hahead hbehind ht' hsound hmay hother habandons).le
                exact ih.stop howes rfl trivial
              · cases ha
          | finish hfinal =>
              cases hr
              have howes : (TaskStage.live _).owes k ≤ false.toNat := hfinal.owes.le
              exact ih.stop howes rfl trivial
          | unwound =>
              cases hr
              have howes : (TaskStage.unwinding).owes k ≤ false.toNat := Nat.le_refl 0
              exact ih.stop howes rfl trivial
      | env x stages haccept =>
          obtain rfl := spawnedPool_accept haccept
          exact ih.begin x.message

/-- A task whose execution is not in flight owes nothing. -/
theorem owes_of_follows {crew : Fleet} {p : Prog (spawned traits) Unit} {u : TaskStage Phase}
    (h : p.Follows (tasks (pipeline crew)) u) (hp : inFlight p = false) : u.owes k = 0 := by
  cases p with
  | ret a =>
      cases u with
      | live t =>
          have hfinal : t.Final := h
          exact hfinal.owes
      | _ => rfl
  | call op f =>
      cases op with
      | call op => cases hp
      | dropPermit =>
          obtain ⟨u', hstep, -⟩ := h ()
          cases hstep with
          | finish hfinal => exact hfinal.owes
          | unwound => rfl

theorem owed_of_follows {crew : Fleet} {threads : List (Prog (spawned traits) Unit)}
    {stages : List (TaskStage Phase)}
    (h : List.Forall₂ (Prog.Follows (tasks (pipeline crew))) threads stages)
    (hthreads : threads.countP inFlight = 0) : owed k stages = 0 := by
  induction h with
  | nil => rfl
  | @cons p u threads stages hp _ ih =>
      have hnone := List.countP_eq_zero.mp hthreads
      have hfirst := owes_of_follows (k := k) hp (by simpa using hnone p List.mem_cons_self)
      have hrest := ih (List.countP_eq_zero.mpr fun v hv => hnone v (List.mem_cons_of_mem p hv))
      simpa [owed, hfirst] using hrest

/-- The metrics are consistent in every history in which no `before` hook ahead of the metrics
fails: outcomes never outnumber starts, and when no execution is in flight they are equal, unless
one has panicked between the hooks of the metrics. -/
theorem metrics_consistent (hahead : k ∉ ahead) (hbehind : k ∉ behind) {s₀ : service.State}
    {tr : List (metered service codec ahead k behind).Label}
    {c : (metered service codec ahead k behind).Config}
    (h : (metered service codec ahead k behind).Reach ⟨(s₀, MetricsInner.new), []⟩ tr c)
    (hquiet : Machine.happened (onReturn (rejects ahead)) tr = 0)
    (hroom : Machine.happened (onReturn (starts k)) tr < 2 ^ 64) :
    (metrics c).Within ∧ (Machine.happened (abandons ahead behind) tr = 0 →
      c.threads.countP inFlight = 0 → (metrics c).Even) := by
  obtain ⟨stages, hstaged, hfollows⟩ := h.staged spawnedPool_entry .nil
  obtain ⟨lost, hlost, hbalance⟩ : ∃ lost ≤ Machine.happened (abandons ahead behind) tr,
      (metrics c).tasksStarted.toNat = (metrics c).tasksSucceeded.toNat +
        (metrics c).tasksFailed.toNat + owed k stages + lost :=
    (metered_of_reach hahead hbehind hstaged hquiet hroom).balance
  constructor
  · rw [MetricsInner.Within, hbalance]
    omega
  · intro hnone hrest
    rw [hnone] at hlost
    rw [owed_of_follows hfollows hrest] at hbalance
    rw [MetricsInner.Even, hbalance]
    omega

end Balance

/-! ## Three runs -/

/-- The in-memory broker and backend, with one middleware ahead of the metrics. -/
abbrev meteredPair : Machine (spawned traits) :=
  metered (systemService (wholeMethods MemoryBroker.driver MemoryBroker.service)
    MemoryResultBackend.service) blankCodec [0] 1 []

/-- Two messages have been delivered, and nothing is counted yet. -/
def meteredOrigin : meteredPair.Config :=
  ⟨(({ MemoryBroker.new with
      processing := ((∅ : Table TaskId TaskMessage).insert ⟨7⟩ (plainMessage ⟨7⟩)).insert ⟨8⟩
        (plainMessage ⟨8⟩) },
      MemoryResultBackend.new), MetricsInner.new), []⟩

/-- The execution of a message begins. -/
def beginExecution (id : TaskId) : meteredPair.Move :=
  .env ⟨⟨["t"], [0, 1], false⟩, plainMessage id⟩

/-- The `i`-th task makes `n` calls, with these answers of the runtime. -/
def callsReturn (i n : Nat) (runtime : RuntimeOracle) : List meteredPair.Move :=
  List.replicate n (.run i (⟨runtime, [(), ()], ()⟩, false))

/-- The next call of the `i`-th task panics. -/
def callPanics (i : Nat) : meteredPair.Move := .run i (⟨stillRuntime, [(), ()], ()⟩, true)

/-- Two executions side by side: one succeeds, the other fails. -/
def pairRun : List meteredPair.Move :=
  [beginExecution ⟨7⟩, beginExecution ⟨8⟩] ++ callsReturn 0 3 stillRuntime ++
    callsReturn 1 12 failingRuntime ++ callsReturn 0 6 stillRuntime

theorem pair_plays : (meteredOrigin.playAll pairRun).isSome = true := by
  decide +kernel

/-- How they end. -/
def pairEnd : List meteredPair.Label × meteredPair.Config :=
  (meteredOrigin.playAll pairRun).get pair_plays

/-- Two executions side by side are counted as started, one as a success and one as a failure. -/
theorem metrics_consistent_pair :
    meteredPair.Reach meteredOrigin pairEnd.1 pairEnd.2 ∧
      metrics pairEnd.2 = ⟨2, 1, 1⟩ ∧ (metrics pairEnd.2).Within ∧ (metrics pairEnd.2).Even := by
  have hreach : meteredPair.Reach meteredOrigin pairEnd.1 pairEnd.2 :=
    Machine.Config.reach_of_get pair_plays
  have hconsistent := metrics_consistent (by decide) (by decide) hreach
    (by decide +kernel) (by decide +kernel)
  exact ⟨hreach, by decide +kernel, hconsistent.1,
    hconsistent.2 (by decide +kernel) (by decide +kernel)⟩

/-- A runtime whose open `before` hooks fail. -/
def rejectingRuntime : RuntimeOracle
  | .before _ _ => .error (.taskFailed "no")
  | op => stillRuntime op

/-- A rejection goes on up to the last `on_error` hook. -/
def rejection : List meteredPair.Move :=
  beginExecution ⟨7⟩ :: callsReturn 0 5 rejectingRuntime

theorem rejection_plays : (meteredOrigin.playAll rejection).isSome = true := by
  decide +kernel

/-- How a rejection ends. -/
def rejectionEnd : List meteredPair.Label × meteredPair.Config :=
  (meteredOrigin.playAll rejection).get rejection_plays

/-- The handler of an execution panics. -/
def handlerPanic : List meteredPair.Move :=
  beginExecution ⟨7⟩ :: callsReturn 0 3 stillRuntime ++ callPanics 0 :: callsReturn 0 1 stillRuntime

theorem handlerPanic_plays : (meteredOrigin.playAll handlerPanic).isSome = true := by
  decide +kernel

/-- How an execution ends whose handler panics. -/
def panicEnd : List meteredPair.Label × meteredPair.Config :=
  (meteredOrigin.playAll handlerPanic).get handlerPanic_plays

/-- A failure without a start: the hook ahead of the metrics fails, and the metrics counts the
failure only.  And a start without an outcome: the handler panics, and no hook is called. -/
theorem metrics_inconsistent :
    (meteredPair.Reach meteredOrigin rejectionEnd.1 rejectionEnd.2 ∧
      metrics rejectionEnd.2 = ⟨0, 0, 1⟩ ∧ ¬ (metrics rejectionEnd.2).Within) ∧
    (meteredPair.Reach meteredOrigin panicEnd.1 panicEnd.2 ∧
      panicEnd.2.threads.countP inFlight = 0 ∧ metrics panicEnd.2 = ⟨1, 0, 0⟩ ∧
      ¬ (metrics panicEnd.2).Even) := by
  have hrejection : meteredPair.Reach meteredOrigin rejectionEnd.1 rejectionEnd.2 :=
    Machine.Config.reach_of_get rejection_plays
  have hpanic : meteredPair.Reach meteredOrigin panicEnd.1 panicEnd.2 :=
    Machine.Config.reach_of_get handlerPanic_plays
  exact ⟨⟨hrejection, by decide +kernel, by decide +kernel⟩,
    ⟨hpanic, by decide +kernel, by decide +kernel, by decide +kernel⟩⟩

end Kojin.Core
