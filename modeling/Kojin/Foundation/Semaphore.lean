/-
  Foundation/Semaphore.lean --- a semaphore around some of the calls of any programs.

  Each call that is guarded is made with a permit in hand:

      acquire ─ call ─ release

  Over a machine, the programs that are started this way form the machine `limited`,
  whose state has the number of permits that are free beside its own.

  `limited_refines`: the permits that are free and the programs that hold one are as many
  as there were at the start, and what the programs do but for the permits is a history of
  the machine itself.  `limited_simulates`: with a permit at all, every history of the
  machine is one of those.
-/
import Kojin.Foundation.Machine

set_option autoImplicit false

namespace Kojin.Foundation

/-! ## Calls with a permit -/

/-- The calls of a program, and those of a semaphore. -/
inductive LimitedOp (I : Interface) where
  | call (op : I.Op)
  | acquire
  | release

/-- The answers. -/
abbrev LimitedOp.Res {I : Interface} : LimitedOp I → Type
  | .call op => I.Res op
  | .acquire => Unit
  | .release => Unit

/-- The interface of programs that share a semaphore. -/
abbrev limited (I : Interface) : Interface := ⟨LimitedOp I, LimitedOp.Res⟩

/-- A guarded call is made with a permit in hand. -/
def limit {I : Interface} (guarded : I.Op → Bool) (op : I.Op) : Prog (limited I) (I.Res op) :=
  if guarded op then do
    Prog.perform (I := limited I) .acquire
    let r ← Prog.perform (I := limited I) (.call op)
    Prog.perform (I := limited I) .release
    pure r
  else Prog.perform (I := limited I) (.call op)

section Programs

variable {I : Interface} {guarded : I.Op → Bool} {α : Type}

theorem interp_limit_of_guarded {op : I.Op} (h : guarded op = true) (k : I.Res op → Prog I α) :
    (Prog.call op k).interp (limit guarded) =
      .call (I := limited I) .acquire fun _ => .call (I := limited I) (.call op) fun r =>
        .call (I := limited I) .release fun _ => (k r).interp (limit guarded) := by
  simp only [Prog.interp, limit, h, if_true]
  rfl

theorem interp_limit_of_not_guarded {op : I.Op} (h : guarded op = false)
    (k : I.Res op → Prog I α) : (Prog.call op k).interp (limit guarded) =
      .call (I := limited I) (.call op) fun r => (k r).interp (limit guarded) := by
  simp only [Prog.interp, limit, h, Bool.false_eq_true, if_false]
  rfl

/-- The program is about to make a guarded call, with a permit in hand. -/
def invoking (guarded : I.Op → Bool) : Prog (limited I) Unit → Bool
  | .call (.call op) _ => guarded op
  | _ => false

/-- The program holds a permit. -/
def holding (guarded : I.Op → Bool) : Prog (limited I) Unit → Bool
  | .call (.call op) _ => guarded op
  | .call .release _ => true
  | _ => false

/-- The program waits for a permit. -/
def acquiring : Prog (limited I) Unit → Bool
  | .call .acquire _ => true
  | _ => false

/-- The program has ended. -/
def ended : Prog (limited I) Unit → Bool
  | .ret _ => true
  | .call _ _ => false

theorem holding_of_invoking {q : Prog (limited I) Unit} (h : invoking guarded q = true) :
    holding guarded q = true := by
  unfold invoking at h
  split at h
  · exact h
  · cases h

/-- The programs that hold a permit. -/
def holders (guarded : I.Op → Bool) (qs : List (Prog (limited I) Unit)) : Nat :=
  qs.countP (holding guarded)

/-- The guarded calls that are under way. -/
def invocations (guarded : I.Op → Bool) (qs : List (Prog (limited I) Unit)) : Nat :=
  qs.countP (invoking guarded)

theorem invocations_le_holders (qs : List (Prog (limited I) Unit)) :
    invocations guarded qs ≤ holders guarded qs :=
  List.countP_mono_left fun _ _ h => holding_of_invoking h

theorem holders_split {q : Prog (limited I) Unit} {before after : List (Prog (limited I) Unit)} :
    holders guarded (before ++ q :: after) =
      holders guarded before + holders guarded after + (holding guarded q).toNat := by
  simp only [holders, List.countP_append, List.countP_cons]
  cases holding guarded q with
  | true => simp only [if_true, Bool.toNat_true, Nat.add_assoc]
  | false => simp

/-- Where a program is that shares the semaphore, and where the program itself is. -/
inductive Inside (guarded : I.Op → Bool) : Prog (limited I) Unit → Prog I Unit → Prop where
  | outside (p : Prog I Unit) : Inside guarded (p.interp (limit guarded)) p
  | granted {op : I.Op} (k : I.Res op → Prog I Unit) (hguarded : guarded op = true) :
      Inside guarded (.call (I := limited I) (.call op) fun r =>
        .call (I := limited I) .release fun _ => (k r).interp (limit guarded)) (.call op k)
  | done (p : Prog I Unit) :
      Inside guarded (.call (I := limited I) .release fun _ => p.interp (limit guarded)) p

theorem holding_interp (p : Prog I Unit) : holding guarded (p.interp (limit guarded)) = false := by
  cases p with
  | ret a => rfl
  | call op k =>
      cases h : guarded op with
      | true =>
          rw [interp_limit_of_guarded h]
          rfl
      | false =>
          rw [interp_limit_of_not_guarded h]
          exact h

theorem holders_interp (ps : List (Prog I Unit)) :
    holders guarded (ps.map (·.interp (limit guarded))) = 0 := by
  simp [holders, List.countP_map, Function.comp_def, holding_interp]

/-- What a call of the semaphore's program is.  It takes a permit, or gives one back,
or is the next call of the program itself. -/
theorem Inside.cases_call {p : Prog I Unit} {op : (limited I).Op}
    {k : (limited I).Res op → Prog (limited I) Unit} (h : Inside guarded (.call op k) p) :
    (op = .acquire ∧ ∀ r, Inside guarded (k r) p ∧ holding guarded (k r) = true) ∨
    (op = .release ∧ ∀ r, Inside guarded (k r) p ∧ holding guarded (k r) = false) ∨
    (∃ (op' : I.Op) (k' : I.Res op' → Prog I Unit) (j : I.Res op' → Prog (limited I) Unit),
      (⟨op, k⟩ : (op : (limited I).Op) × ((limited I).Res op → Prog (limited I) Unit)) =
        ⟨.call op', j⟩ ∧ p = .call op' k' ∧
      ∀ r, Inside guarded (j r) (k' r) ∧ holding guarded (j r) = guarded op') := by
  generalize hq : (Prog.call op k : Prog (limited I) Unit) = q at h
  cases h with
  | outside p =>
      cases p with
      | ret a => cases hq
      | call op' k' =>
          cases hg : guarded op' with
          | true =>
              rw [interp_limit_of_guarded hg] at hq
              cases hq
              exact .inl ⟨rfl, fun _ => ⟨.granted k' hg, hg⟩⟩
          | false =>
              rw [interp_limit_of_not_guarded hg] at hq
              cases hq
              refine .inr (.inr ⟨op', k', _, rfl, rfl, fun r => ⟨.outside _, ?_⟩⟩)
              rw [holding_interp]
              exact hg.symm
  | granted k' hg =>
      cases hq
      exact .inr (.inr ⟨_, k', _, rfl, rfl, fun r => ⟨.done _, hg.symm⟩⟩)
  | done p =>
      cases hq
      exact .inr (.inl ⟨rfl, fun _ => ⟨.outside _, holding_interp p⟩⟩)

end Programs

/-! ## The machine -/

namespace Machine

variable {I : Interface} (M : Machine I) (guarded : I.Op → Bool)

/-- The machine with a semaphore. -/
def limited : Machine (Foundation.limited I) where
  State := M.State × Nat
  Oracle := M.Oracle
  respond o s
    | .call op => (M.respond o s.1 op).map fun p => (p.1, p.2, s.2)
    | .acquire => if 0 < s.2 then some ((), s.1, s.2 - 1) else none
    | .release => some ((), s.1, s.2 + 1)
  Stimulus := M.Stimulus
  accept x s := (M.accept x s.1).map fun p => ((p.1, s.2), p.2.map (·.interp (limit guarded)))

variable {M guarded}

/-- What a step is but for the permits. -/
def unlimited : (M.limited guarded).Label → Option M.Label
  | .call ⟨.call op, r⟩ => some (.call ⟨op, r⟩)
  | .call ⟨.acquire, _⟩ => none
  | .call ⟨.release, _⟩ => none
  | .env x => some (.env x)

/-- A configuration of the machine with a semaphore, and one of the machine. -/
structure Limits (permits : Nat) (c : M.Config) (c' : (M.limited guarded).Config) : Prop where
  state : c'.state.1 = c.state
  threads : List.Forall₂ (Inside guarded) c'.threads c.threads
  permits : c'.state.2 + holders guarded c'.threads = permits

/-- A step keeps the permits, and is a step of the machine or none. -/
theorem Limits.step {permits : Nat} {c : M.Config} {c' d' : (M.limited guarded).Config}
    {l : (M.limited guarded).Label} (h : Limits permits c c')
    (hstep : (M.limited guarded).Step c' l d') :
    ∃ d, M.Reach c (unlimited l).toList d ∧ Limits permits d d' := by
  obtain ⟨s, ps⟩ := c
  obtain ⟨hstate, hthreads, hpermits⟩ := h
  cases hstep with
  | @call o t t' op r k before after hr =>
      obtain ⟨ps₁, p, ps₂, rfl, hbefore, hp, hafter⟩ := forall₂_split hthreads
      rw [holders_split] at hpermits
      rcases hp.cases_call with ⟨rfl, hk⟩ | ⟨rfl, hk⟩ | ⟨op', k', j, hcall, rfl, hk⟩
      · obtain ⟨hinside, hholds⟩ := hk r
        simp only [limited] at hr
        split at hr
        · cases hr
          refine ⟨_, .start, hstate, List.rel_append hbefore (.cons hinside hafter), ?_⟩
          rw [holders_split, hholds]
          simp only [holding, Bool.toNat_false, Bool.toNat_true] at hpermits ⊢
          omega
        · cases hr
      · obtain ⟨hinside, hholds⟩ := hk r
        simp only [limited] at hr
        cases hr
        refine ⟨_, .start, hstate, List.rel_append hbefore (.cons hinside hafter), ?_⟩
        rw [holders_split, hholds]
        simp only [holding, Bool.toNat_false, Bool.toNat_true] at hpermits ⊢
        omega
      · cases hcall
        obtain ⟨hinside, hholds⟩ := hk r
        obtain ⟨q, hq, heq⟩ := Option.map_eq_some_iff.mp hr
        cases heq
        subst hstate
        have hcalled : M.Step ⟨t.1, ps₁ ++ .call op' k' :: ps₂⟩ (.call ⟨op', q.1⟩)
            ⟨q.2, ps₁ ++ k' q.1 :: ps₂⟩ := Step.call (M := M) o k' ps₁ ps₂ hq
        refine ⟨_, .step .start hcalled, rfl, List.rel_append hbefore (.cons hinside hafter), ?_⟩
        rw [holders_split, hholds]
        exact hpermits
  | @env x t t' threads new haccept =>
      obtain ⟨q, hq, heq⟩ := Option.map_eq_some_iff.mp haccept
      cases heq
      subst hstate
      have hstarted : M.Step ⟨t.1, ps⟩ (.env x) ⟨q.1, ps ++ q.2⟩ := Step.env (M := M) x ps hq
      refine ⟨_, .step .start hstarted, rfl, List.rel_append hthreads ?_, ?_⟩
      · exact List.forall₂_map_left_iff.mpr (List.forall₂_same.mpr fun p _ => .outside p)
      · have hnew : holders guarded (q.2.map (·.interp (limit guarded))) = 0 :=
          holders_interp q.2
        simp only [holders, List.countP_append] at hpermits hnew ⊢
        rw [hnew]
        exact hpermits

/-- A semaphore refines the machine. -/
theorem limited_refines {permits : Nat} {s₀ : M.State} {tr : List (M.limited guarded).Label}
    {c' : (M.limited guarded).Config} (h : (M.limited guarded).Reach ⟨(s₀, permits), []⟩ tr c') :
    ∃ c, M.Reach ⟨s₀, []⟩ (tr.filterMap unlimited) c ∧ Limits permits c c' := by
  induction h with
  | start => exact ⟨_, .start, rfl, .nil, rfl⟩
  | step _ hstep ih =>
      obtain ⟨c, hreach, hlimits⟩ := ih
      obtain ⟨d, hreach', hlimits'⟩ := hlimits.step hstep
      exact ⟨d, filterMap_snoc unlimited _ _ ▸ hreach.trans hreach', hlimits'⟩

/-- No more guarded calls than permits. -/
theorem Limits.invocations_le {permits : Nat} {c : M.Config} {c' : (M.limited guarded).Config}
    (h : Limits permits c c') : invocations guarded c'.threads ≤ permits :=
  Nat.le_trans (invocations_le_holders c'.threads) (h.permits ▸ Nat.le_add_left _ _)

/-- A program that has not ended can go on, or waits for what another holds. -/
theorem Limits.ready {permits : Nat} {c : M.Config} {c' : (M.limited guarded).Config}
    (h : Limits permits c c') (hpermits : 0 < permits) {q : Prog (Foundation.limited I) Unit}
    (hq : q ∈ c'.threads) (hrunning : ended q = false) :
    ∃ q' ∈ c'.threads, ended q' = false ∧ (acquiring q' = true → 0 < c'.state.2) := by
  rcases Nat.eq_zero_or_pos c'.state.2 with hnone | hfree
  · have hholders : 0 < holders guarded c'.threads := by
      have := h.permits
      omega
    obtain ⟨q', hmem, hholds⟩ := List.countP_pos_iff.mp hholders
    refine ⟨q', hmem, ?_, fun hwaits => ?_⟩
    · cases q' with
      | ret a => cases hholds
      | call op k => rfl
    · unfold acquiring at hwaits
      split at hwaits
      · cases hholds
      · cases hwaits
  · exact ⟨q, hq, hrunning, fun _ => hfree⟩

/-! ## Every history of the machine -/

theorem step_acquire {s : M.State} {n : Nat} (hn : 0 < n) (o : M.Oracle)
    (k : Unit → Prog (Foundation.limited I) Unit)
    (before after : List (Prog (Foundation.limited I) Unit)) :
    (M.limited guarded).Step
      ⟨(s, n), before ++ .call (I := Foundation.limited I) .acquire k :: after⟩
      (.call ⟨.acquire, ()⟩) ⟨(s, n - 1), before ++ k () :: after⟩ := by
  have hr : (M.limited guarded).respond o (s, n) .acquire = some ((), s, n - 1) := if_pos hn
  exact Step.call (M := M.limited guarded) o k before after hr

theorem step_release {s : M.State} {n : Nat} (o : M.Oracle)
    (k : Unit → Prog (Foundation.limited I) Unit)
    (before after : List (Prog (Foundation.limited I) Unit)) :
    (M.limited guarded).Step
      ⟨(s, n), before ++ .call (I := Foundation.limited I) .release k :: after⟩
      (.call ⟨.release, ()⟩) ⟨(s, n + 1), before ++ k () :: after⟩ := by
  have hr : (M.limited guarded).respond o (s, n) .release = some ((), s, n + 1) := rfl
  exact Step.call (M := M.limited guarded) o k before after hr

theorem step_call {s s' : M.State} {n : Nat} {o : M.Oracle} {op : I.Op} {r : I.Res op}
    (hr : M.respond o s op = some (r, s')) (k : I.Res op → Prog (Foundation.limited I) Unit)
    (before after : List (Prog (Foundation.limited I) Unit)) :
    (M.limited guarded).Step
      ⟨(s, n), before ++ .call (I := Foundation.limited I) (.call op) k :: after⟩
      (.call ⟨.call op, r⟩) ⟨(s', n), before ++ k r :: after⟩ := by
  have hlimited : (M.limited guarded).respond o (s, n) (.call op) = some (r, s', n) :=
    Option.map_eq_some_iff.mpr ⟨_, hr, rfl⟩
  exact Step.call (M := M.limited guarded) o k before after hlimited

/-- A step of the machine can be made with a permit that is free, if it needs one. -/
theorem Step.simulated {permits : Nat} {c d : M.Config} {l : M.Label} (hstep : M.Step c l d)
    (hpermits : happens (fun e => guarded e.op) l = true → 0 < permits) :
    ∃ tr, (M.limited guarded).Reach
        ⟨(c.state, permits), c.threads.map (·.interp (limit guarded))⟩ tr
        ⟨(d.state, permits), d.threads.map (·.interp (limit guarded))⟩ ∧
      tr.filterMap unlimited = [l] := by
  cases hstep with
  | @call o s s' op r k before after hr =>
      simp only [List.map_append, List.map_cons]
      cases hg : guarded op with
      | true =>
          have hpos : 0 < permits := hpermits hg
          have hback : permits - 1 + 1 = permits := Nat.sub_add_cancel hpos
          rw [interp_limit_of_guarded hg]
          have hacquire := (Reach.start (M := M.limited guarded)).step (step_acquire (s := s) hpos o
            (fun _ => .call (I := Foundation.limited I) (.call op) fun r =>
              .call (I := Foundation.limited I) .release fun _ => (k r).interp (limit guarded))
            (before.map (·.interp (limit guarded))) (after.map (·.interp (limit guarded))))
          have hcall := hacquire.step (step_call hr _ _ _)
          have hrelease := hcall.step (step_release o _ _ _)
          rw [hback] at hrelease
          exact ⟨_, hrelease, rfl⟩
      | false =>
          rw [interp_limit_of_not_guarded hg]
          exact ⟨_, Reach.start.step (step_call hr _ _ _), rfl⟩
  | @env x s s' threads new haccept =>
      refine ⟨[.env x], ?_, rfl⟩
      rw [List.map_append]
      have hlimited : (M.limited guarded).accept x (s, permits) =
          some ((s', permits), new.map (·.interp (limit guarded))) :=
        Option.map_eq_some_iff.mpr ⟨_, haccept, rfl⟩
      exact Reach.start.step (Step.env (M := M.limited guarded) x _ hlimited)

/-- With a permit at all, every history of the machine can be made. -/
theorem limited_simulates {permits : Nat} {s₀ : M.State} {history : List M.Label} {c : M.Config}
    (h : M.Reach ⟨s₀, []⟩ history c)
    (hpermits : ∀ l ∈ history, happens (fun e => guarded e.op) l = true → 0 < permits) :
    ∃ tr, (M.limited guarded).Reach ⟨(s₀, permits), []⟩ tr
        ⟨(c.state, permits), c.threads.map (·.interp (limit guarded))⟩ ∧
      tr.filterMap unlimited = history := by
  induction h with
  | start => exact ⟨[], .start, rfl⟩
  | @step history c d l _ hstep ih =>
      obtain ⟨tr, hreach, htr⟩ := ih fun l' hl' => hpermits l' (List.mem_append_left _ hl')
      obtain ⟨tr', hreach', htr'⟩ := hstep.simulated (hpermits l (by simp))
      exact ⟨tr ++ tr', hreach.trans hreach', by rw [List.filterMap_append, htr, htr']⟩

/-- A guarded call needs a permit. -/
theorem Limits.permits_pos {permits : Nat} {c : M.Config} {c' d' : (M.limited guarded).Config}
    {l : (M.limited guarded).Label} (h : Limits permits c c')
    (hstep : (M.limited guarded).Step c' l d') {l' : M.Label} (hl : unlimited l = some l')
    (hguarded : happens (fun e => guarded e.op) l' = true) : 0 < permits := by
  have hle := h.invocations_le
  cases hstep with
  | @call o t t' op r k before after hr =>
      cases op with
      | acquire => cases hl
      | release => cases hl
      | call op =>
          cases hl
          have hinvokes : invoking guarded
              (.call (I := Foundation.limited I) (.call op) k) = true := hguarded
          have hmem : Prog.call (I := Foundation.limited I) (.call op) k ∈
              before ++ .call (I := Foundation.limited I) (.call op) k :: after := by simp
          exact Nat.lt_of_lt_of_le (List.countP_pos_iff.mpr ⟨_, hmem, hinvokes⟩) hle
  | env x threads haccept =>
      cases hl
      cases hguarded

/-- What a semaphore leaves of the histories: all of them, or, without a permit, those
without a guarded call. -/
theorem limited_histories_iff {permits : Nat} {s₀ : M.State} {history : List M.Label} :
    (∃ tr c', (M.limited guarded).Reach ⟨(s₀, permits), []⟩ tr c' ∧
        tr.filterMap unlimited = history) ↔
      (∃ c, M.Reach ⟨s₀, []⟩ history c) ∧
        ∀ l ∈ history, happens (fun e => guarded e.op) l = true → 0 < permits := by
  constructor
  · rintro ⟨tr, c', hreach, rfl⟩
    obtain ⟨c, hreach', -⟩ := limited_refines hreach
    refine ⟨⟨c, hreach'⟩, ?_⟩
    clear hreach' c
    induction hreach with
    | start => intro l hl; cases hl
    | step hreach hstep ih =>
        intro l hl hguarded
        rw [filterMap_snoc, List.mem_append] at hl
        rcases hl with hl | hl
        · exact ih l hl hguarded
        · obtain ⟨c, -, hlimits⟩ := limited_refines hreach
          exact hlimits.permits_pos hstep (Option.mem_toList.mp hl) hguarded
  · rintro ⟨⟨c, hreach⟩, hpermits⟩
    obtain ⟨tr, hreach', htr⟩ := limited_simulates hreach hpermits
    exact ⟨tr, _, hreach', htr⟩

end Machine

end Kojin.Foundation
