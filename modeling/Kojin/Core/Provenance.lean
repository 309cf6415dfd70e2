/-
  Core/Provenance.lean --- where results come from.

  Workers and clients over any broker share the in-memory result backend.  The broker may
  deliver a message again, fail or lose it: nothing is assumed of it.

      handler answers ─ ack ─ store ─ complete_group_member ─ get_group_results ─ callback

  Between the answer of its handler and the completion of its group an execution holds one
  answer that is not counted yet.  For every group,

      answers not counted yet + results of the group  ≤  answers of its members

  so a callback is not asked for before as many handlers have answered as the group has
  members.
-/
import Kojin.Core.Correlation

set_option autoImplicit false

namespace Kojin.Core

open Kojin.Foundation

/-! ## Workers and clients -/

/-- A thread is an execution or a client submitting a workflow. -/
inductive Staff where
  | worker (t : Stage)
  | client (s : Canvas.Submission)

/-- Each goes its own way. -/
inductive Staff.Step (codec : Codec) : Staff → (op : traits.Op) → traits.Res op → Staff → Prop where
  | worker {t t' : Stage} {op : traits.Op} {r : traits.Res op} :
      Stage.Step codec t op r t' → Step codec (.worker t) op r (.worker t')
  | client {s s' : Canvas.Submission} {op : traits.Op} {r : traits.Res op} :
      Canvas.Submission.Step codec s op r s' → Step codec (.client s) op r (.client s')

/-- A thread may stop where its execution or its submission may. -/
def Staff.Final : Staff → Prop
  | .worker t => t.Final
  | .client s => s.Final

/-- The protocol of workers and clients. -/
abbrev staff (codec : Codec) : Protocol traits := ⟨Staff, Staff.Step codec, Staff.Final⟩

theorem executeTask_staff (codec : Codec) (w : Worker) (m : TaskMessage) :
    (executeTask w codec m).Follows (staff codec) (.worker (.received w.hasBackend m)) := by
  refine (executeTask_follows w m).simulated (fun t u => u = Staff.worker t) ?_ ?_ rfl
  · rintro t u op r t' rfl hstep
    exact ⟨_, .worker hstep, rfl⟩
  · rintro t u rfl hfinal
    exact hfinal

theorem submit_staff (codec : Codec) (c : Canvas) :
    (c.submit codec).Follows (staff codec) (.client (.fresh c)) := by
  refine (Canvas.submit_follows c).simulated (fun s u => u = Staff.client s) ?_ ?_ rfl
  · rintro s u op r s' rfl hstep
    exact ⟨_, .client hstep, rfl⟩
  · rintro s u rfl hfinal
    exact hfinal

/-! ## What an execution has in hand -/

/-- The answer of the handler, from when it has come. -/
def Stage.outcome : Stage → Option (TaskMessage × Json)
  | .succeeded _ m v => some (m, v)
  | .acked _ m v => some (m, v)
  | .stored m v => some (m, v)
  | .calling m v _ => some (m, v)
  | .collected m v _ => some (m, v)
  | .wrapping m v => some (m, v)
  | .minting m v _ => some (m, v)
  | .continuing m v _ => some (m, v)
  | .chained m v => some (m, v)
  | .finished m v => some (m, v)
  | _ => none

def Staff.outcome : Staff → Option (TaskMessage × Json)
  | .worker t => t.outcome
  | .client _ => none

/-- The group that does not count the answer yet. -/
def Stage.uncounted : Stage → Option String
  | .succeeded _ m _ => m.groupId
  | .acked _ m _ => m.groupId
  | .stored m _ => m.groupId
  | _ => none

def Staff.uncounted : Staff → Option String
  | .worker t => t.uncounted
  | .client _ => none

/-- The group whose results are about to be asked for, and how many it has to have. -/
def Stage.asking : Stage → Option (TaskMessage × String)
  | .calling m _ _ => m.groupId.map (m, ·)
  | _ => none

def Staff.asking : Staff → Option (TaskMessage × String)
  | .worker t => t.asking
  | .client _ => none

/-- The event of a handler that answers. -/
def answer (x : TaskMessage) (v : Json) : Event traits :=
  ⟨.runtime (.handle x x.taskName x.payload), .ok v⟩

/-- The handler of a member answers. -/
def memberAnswer (g : String) : Event traits → Bool
  | ⟨.runtime (.handle x _ _), .ok _⟩ => x.groupId = some g
  | _ => false

/-- The answer an execution has in hand was there before the call, or is what its handler just
answered. -/
theorem Staff.Step.outcome {codec : Codec} {t t' : Staff} {op : traits.Op} {r : traits.Res op}
    (h : Staff.Step codec t op r t') {m : TaskMessage} {v : Json} (ho : t'.outcome = some (m, v)) :
    t.outcome = some (m, v) ∨ (⟨op, r⟩ : Event traits) = answer m.start v := by
  cases h with
  | client h => cases ho
  | worker h =>
      cases h with
      | handled b m' result =>
          cases ho
          exact .inr rfl
      | note t he => exact .inl ho
      | _ => exact .inl ho

/-- An answer that is not counted yet is in the hands of its execution. -/
theorem Staff.uncounted_outcome {t : Staff} {g : String} (h : t.uncounted = some g) :
    ∃ m v, t.outcome = some (m, v) ∧ m.groupId = some g := by
  cases t with
  | client s => cases h
  | worker t => cases t <;> first | exact ⟨_, _, rfl, h⟩ | cases h

/-- An answer that is not counted after a call has just come, or was not counted before it. -/
theorem Staff.Step.uncounted {codec : Codec} {t t' : Staff} {op : traits.Op} {r : traits.Res op}
    (h : Staff.Step codec t op r t') {g : String} (hu : t'.uncounted = some g) :
    t.uncounted = some g ∨ memberAnswer g ⟨op, r⟩ = true := by
  cases h with
  | client h => cases hu
  | worker h =>
      cases h with
      | handled b m result =>
          have hgroup : m.groupId = some g := hu
          exact .inr (decide_eq_true hgroup)
      | note t he => exact .inl hu
      | after b m result mw x y r => exact .inl hu
      | ack b m result r => exact .inl hu
      | storeMember result r hgroup => exact .inl hu
      | _ => cases hu

/-- What the backend is asked for. -/
theorem Staff.Step.backend_cases {codec : Codec} {t t' : Staff} {op : ResultBackendOp} {r : op.Res}
    (h : Staff.Step codec t (.backend op) r t') :
    (∃ m v, op = .store m.id v ∧ t.outcome = some (m, v)) ∨
    (∃ g n, op = .initGroup g n) ∨
    (∃ g m v, op = .completeGroupMember g m.id v ∧ t.outcome = some (m, v) ∧
      t.uncounted = some g ∧ t'.uncounted = none) ∨
    (∃ m g, op = .getGroupResults g ∧ t.asking = some (m, g)) := by
  cases h with
  | client h =>
      cases h with
      | announce correlation group sigs callback => exact .inr (.inl ⟨_, _, rfl⟩)
      | refuse correlation group sigs callback e => exact .inr (.inl ⟨_, _, rfl⟩)
  | worker h =>
      cases h with
      | storeMember result r hgroup => exact .inl ⟨_, _, rfl, rfl⟩
      | storeLone result r hgroup => exact .inl ⟨_, _, rfl, rfl⟩
      | countLast result hgroup hdue => exact .inr (.inr (.inl ⟨_, _, _, rfl, rfl, hgroup, rfl⟩))
      | countOther result hgroup hdue => exact .inr (.inr (.inl ⟨_, _, _, rfl, rfl, hgroup, rfl⟩))
      | countFailed result e hgroup => exact .inr (.inr (.inl ⟨_, _, _, rfl, rfl, hgroup, rfl⟩))
      | @collect m group result callback r hgroup =>
          have hasks : (Staff.worker (.calling m result callback)).asking = some (m, group) :=
            Option.map_eq_some_iff.mpr ⟨group, hgroup, rfl⟩
          exact .inr (.inr (.inr ⟨m, group, rfl, hasks⟩))

/-- The number of members at which a worker takes the group of a message to be complete: the
total that the message carries, and zero without one. -/
def TaskMessage.groupSize (m : TaskMessage) : UInt32 :=
  m.groupTotal.getD 0

/-- Who asks for the results of a group: the execution whose completion was told the total that
its message carries. -/
theorem Staff.Step.asking {codec : Codec} {t t' : Staff} {op : traits.Op} {r : traits.Res op}
    (h : Staff.Step codec t op r t') {m : TaskMessage} {g : String}
    (ha : t'.asking = some (m, g)) : t.asking = some (m, g) ∨
      ∃ v, t.outcome = some (m, v) ∧
        (⟨op, r⟩ : Event traits) = ⟨.backend (.completeGroupMember g m.id v), .ok m.groupSize⟩ := by
  cases h with
  | client h => cases ha
  | worker h =>
      cases h with
      | note t he => exact .inl ha
      | @countLast m' callback group result c hgroup hdue =>
          obtain ⟨g', hg', heq⟩ := Option.map_eq_some_iff.mp ha
          cases heq
          rw [hgroup] at hg'
          cases hg'
          unfold TaskMessage.callbackDue at hdue
          split at hdue
          · rename_i htotal
            subst htotal
            exact .inr ⟨result, rfl, rfl⟩
          · cases hdue
      | _ => cases ha

/-! ## What the backend has -/

section Backend

variable {C : Carrier} {codec : Codec}

/-- Workers and clients over the broker `C` and the in-memory backend. -/
abbrev office (C : Carrier) (codec : Codec) : Machine traits :=
  deployment C MemoryResultBackend.service codec

/-- The handler of the message has answered. -/
def Answered (tr : List (office C codec).Label) (x : TaskMessage) (v : Json) : Prop :=
  Machine.Label.call (answer x v) ∈ tr

/-- How many handlers of members have answered. -/
def memberAnswers (tr : List (office C codec).Label) (g : String) : Nat :=
  Machine.happened (memberAnswer g) tr

theorem Answered.mono {tr tr' : List (office C codec).Label} {x : TaskMessage} {v : Json}
    (h : Answered tr x v) : Answered (tr ++ tr') x v := List.mem_append_left _ h

/-- The backend has nothing but answers, and no group has more than its members gave and
`uncounted` leaves. -/
structure Sourced (tr : List (office C codec).Label) (s : MemoryResultBackend)
    (uncounted : String → Nat) : Prop where
  results : ∀ key v, s.results.lookup key = some v → ∃ x, Answered tr x v ∧ x.id.toText = key
  members : ∀ g st, s.groups.lookup g = some st → ∀ v ∈ st.results,
    ∃ x, Answered tr x v ∧ x.groupId = some g
  completed : ∀ g st, s.groups.lookup g = some st → st.completed.toNat ≤ st.results.length
  counted : ∀ g st, s.groups.lookup g = some st →
    uncounted g + st.results.length ≤ memberAnswers tr g
  uncounted_le : ∀ g, uncounted g ≤ memberAnswers tr g

variable {tr : List (office C codec).Label} {s : MemoryResultBackend} {uncounted : String → Nat}

/-- A step that leaves the backend alone. -/
theorem Sourced.step (h : Sourced tr s uncounted) {l : (office C codec).Label}
    {uncounted' : String → Nat}
    (hu : ∀ g, uncounted' g ≤ uncounted g + (Machine.happens (memberAnswer g) l).toNat) :
    Sourced (tr ++ [l]) s uncounted' := by
  have hmore : ∀ g, memberAnswers (tr ++ [l]) g =
      memberAnswers tr g + (Machine.happens (memberAnswer g) l).toNat :=
    fun g => Machine.happened_snoc _ tr l
  refine ⟨fun key v hv => ?_, fun g st hst v hv => ?_, h.completed, fun g st hst => ?_,
    fun g => ?_⟩
  · obtain ⟨x, hx, hid⟩ := h.results key v hv
    exact ⟨x, hx.mono, hid⟩
  · obtain ⟨x, hx, hgroup⟩ := h.members g st hst v hv
    exact ⟨x, hx.mono, hgroup⟩
  · have hcounted := h.counted g st hst
    have hle := hu g
    rw [hmore g]
    omega
  · have hcounted := h.uncounted_le g
    have hle := hu g
    rw [hmore g]
    omega

/-- `store`. -/
theorem Sourced.store (h : Sourced tr s uncounted) {x : TaskMessage} {v : Json}
    (hx : Answered tr x v) : Sourced tr (s.store x.id v) uncounted := by
  refine ⟨fun key v' hv => ?_, h.members, h.completed, h.counted, h.uncounted_le⟩
  by_cases hkey : key = x.id.toText
  · subst hkey
    rw [MemoryResultBackend.store, AList.lookup_insert] at hv
    cases hv
    exact ⟨x, hx, rfl⟩
  · rw [MemoryResultBackend.store, AList.lookup_insert_ne hkey] at hv
    exact h.results key v' hv

/-- `init_group`. -/
theorem Sourced.initGroup (h : Sourced tr s uncounted) (group : String) (total : UInt32) :
    Sourced tr (s.initGroup group total) uncounted := by
  have hlookup : ∀ g st, (s.initGroup group total).groups.lookup g = some st →
      st = ⟨total, 0, []⟩ ∨ s.groups.lookup g = some st := by
    intro g st hst
    by_cases hg : g = group
    · subst hg
      rw [MemoryResultBackend.initGroup, AList.lookup_insert] at hst
      exact .inl (Option.some.inj hst).symm
    · rw [MemoryResultBackend.initGroup, AList.lookup_insert_ne hg] at hst
      exact .inr hst
  refine ⟨h.results, fun g st hst v hv => ?_, fun g st hst => ?_, fun g st hst => ?_,
    h.uncounted_le⟩
  · rcases hlookup g st hst with rfl | hst
    · cases hv
    · exact h.members g st hst v hv
  · rcases hlookup g st hst with rfl | hst
    · exact Nat.le_refl 0
    · exact h.completed g st hst
  · rcases hlookup g st hst with rfl | hst
    · exact h.uncounted_le g
    · exact h.counted g st hst

/-- `complete_group_member`, by an answer that was not counted yet. -/
theorem Sourced.complete (h : Sourced tr s uncounted) {x : TaskMessage} {v : Json} {group : String}
    (hx : Answered tr x v) (hgroup : x.groupId = some group) {uncounted' : String → Nat}
    (hu : ∀ g, uncounted' g ≤ uncounted g) (hless : uncounted' group + 1 ≤ uncounted group) :
    Sourced tr (s.completeGroupMember group v).2 uncounted' ∧
      ∀ c, (s.completeGroupMember group v).1 = .ok c → c.toNat ≤ memberAnswers tr group := by
  have hle : ∀ g, uncounted' g ≤ memberAnswers tr g := fun g => (hu g).trans (h.uncounted_le g)
  unfold MemoryResultBackend.completeGroupMember
  cases hlookup : s.groups.lookup group with
  | none =>
      refine ⟨⟨h.results, h.members, h.completed, fun g st hst => ?_, hle⟩, fun c hc => ?_⟩
      · exact (Nat.add_le_add_right (hu g) _).trans (h.counted g st hst)
      · cases hc
  | some st₀ =>
      have hcompleted : (st₀.completed + 1).toNat ≤ st₀.results.length + 1 := by
        have hle := h.completed group st₀ hlookup
        rw [UInt32.toNat_add]
        exact (Nat.mod_le _ _).trans (Nat.add_le_add_right hle 1)
      have hcounted := h.counted group st₀ hlookup
      have hcases : ∀ g st, (s.groups.insert group
          ⟨st₀.total, st₀.completed + 1, st₀.results ++ [v]⟩).lookup g = some st →
          (g = group ∧ st = ⟨st₀.total, st₀.completed + 1, st₀.results ++ [v]⟩) ∨
            s.groups.lookup g = some st := by
        intro g st hst
        by_cases hg : g = group
        · subst hg
          rw [AList.lookup_insert] at hst
          exact .inl ⟨rfl, (Option.some.inj hst).symm⟩
        · rw [AList.lookup_insert_ne hg] at hst
          exact .inr hst
      refine ⟨⟨h.results, fun g st hst v' hv' => ?_, fun g st hst => ?_, fun g st hst => ?_, hle⟩,
        fun c hc => ?_⟩
      · rcases hcases g st hst with ⟨rfl, rfl⟩ | hst
        · rcases List.mem_append.mp hv' with hv' | hv'
          · exact h.members g st₀ hlookup v' hv'
          · obtain rfl := List.mem_singleton.mp hv'
            exact ⟨x, hx, hgroup⟩
        · exact h.members g st hst v' hv'
      · rcases hcases g st hst with ⟨rfl, rfl⟩ | hst
        · rw [List.length_append]
          exact hcompleted
        · exact h.completed g st hst
      · rcases hcases g st hst with ⟨rfl, rfl⟩ | hst
        · rw [List.length_append, List.length_singleton]
          omega
        · exact (Nat.add_le_add_right (hu g) _).trans (h.counted g st hst)
      · rw [← Except.ok.inj hc]
        exact hcompleted.trans (by omega)

/-! ## The account -/

/-- The answers that a group does not count yet. -/
def waiting (stages : List Staff) (g : String) : Nat :=
  stages.countP fun t => t.uncounted = some g

theorem waiting_split {t : Staff} {before after : List Staff} (g : String) :
    waiting (before ++ t :: after) g =
      waiting before g + waiting after g + (decide (t.uncounted = some g)).toNat := by
  simp only [waiting, List.countP_append, List.countP_cons]
  by_cases hu : t.uncounted = some g
  · simp [hu, Nat.add_assoc]
  · simp [hu]

theorem memberAnswers_mono (tr tr' : List (office C codec).Label) (g : String) :
    memberAnswers tr g ≤ memberAnswers (tr ++ tr') g := by
  rw [memberAnswers, memberAnswers, Machine.happened, Machine.happened, List.countP_append]
  exact Nat.le_add_right _ _

/-- The execution of a member was told its own total: its completion, with the value its handler
had answered, returned the total that its message carries, after as many answers of members. -/
def ToldTotal (tr : List (office C codec).Label) (g : String) (x : TaskMessage) : Prop :=
  ∃ v, Answered tr x v ∧
    Machine.Label.call
      (⟨.backend (.completeGroupMember g x.id v), .ok x.groupSize⟩ : Event traits) ∈ tr ∧
    x.groupSize.toNat ≤ memberAnswers tr g

theorem ToldTotal.mono {tr tr' : List (office C codec).Label} {g : String} {x : TaskMessage}
    (h : ToldTotal tr g x) : ToldTotal (tr ++ tr') g x := by
  obtain ⟨v, hx, htold, hle⟩ := h
  exact ⟨v, hx.mono, List.mem_append_left _ htold, hle.trans (memberAnswers_mono tr tr' g)⟩

/-- What has been asked of a group: by the execution of a member that was told its own total,
and what it is told are answers of members. -/
def Justified (tr : List (office C codec).Label) (g : String) (r : TaskResult (List Json)) : Prop :=
  (∃ x, x.groupId = some g ∧ ToldTotal tr g x) ∧
  ∀ vs, r = .ok vs → ∀ v ∈ vs, ∃ x, Answered tr x v ∧ x.groupId = some g

/-- What is true of the history, the backend and the threads. -/
structure Backed (tr : List (office C codec).Label)
    (c : (office C codec).Staged (staff codec)) : Prop where
  outcomes : ∀ t ∈ c.stages, ∀ m v, t.outcome = some (m, v) → Answered tr m.start v
  asking : ∀ t ∈ c.stages, ∀ m g, t.asking = some (m, g) → ToldTotal tr g m.start
  sourced : Sourced tr c.state.2 (waiting c.stages)
  asked : ∀ tr₁ g r tr₂, tr = tr₁ ++ .call ⟨.backend (.getGroupResults g), r⟩ :: tr₂ →
    Justified tr₁ g r

theorem Staff.asking_groupId {t : Staff} {m : TaskMessage} {g : String}
    (h : t.asking = some (m, g)) : m.groupId = some g := by
  cases t with
  | client s => cases h
  | worker t =>
      cases t with
      | calling m' v callback =>
          obtain ⟨g', hg, heq⟩ := Option.map_eq_some_iff.mp h
          cases heq
          exact hg
      | _ => cases h

/-- The last label of a history, or one before it. -/
theorem snoc_eq_append_cons {α : Type} {tr tr₁ tr₂ : List α} {l l' : α}
    (h : tr ++ [l] = tr₁ ++ l' :: tr₂) :
    (tr₁ = tr ∧ l' = l) ∨ ∃ tr₃, tr = tr₁ ++ l' :: tr₃ := by
  rcases List.eq_nil_or_concat tr₂ with rfl | ⟨tr₃, x, rfl⟩
  · obtain ⟨htr, hl⟩ := List.append_inj' h rfl
    exact .inl ⟨htr.symm, (List.singleton_inj.mp hl).symm⟩
  · rw [List.concat_eq_append, ← List.cons_append, ← List.append_assoc] at h
    exact .inr ⟨tr₃, (List.append_inj' h rfl).1⟩

section Step

variable {c : (office C codec).Staged (staff codec)} {t t' : Staff} {before after : List Staff}
  {op : traits.Op} {r : traits.Res op}

/-- The answers in hand after a call. -/
theorem Backed.outcomes_step (h : Backed tr c) (hc : c.stages = before ++ t :: after)
    (hstep : Staff.Step codec t op r t') : ∀ u ∈ before ++ t' :: after, ∀ m v,
      u.outcome = some (m, v) → Answered (tr ++ [.call ⟨op, r⟩]) m.start v := by
  intro u hu m v ho
  have hold : ∀ u, u ∈ before ++ t :: after → u.outcome = some (m, v) →
      Answered (tr ++ [.call ⟨op, r⟩]) m.start v :=
    fun u hu ho => (h.outcomes u (hc ▸ hu) m v ho).mono
  rcases List.mem_append.mp hu with hu | hu
  · exact hold u (List.mem_append_left _ hu) ho
  · rcases List.mem_cons.mp hu with rfl | hu
    · rcases hstep.outcome ho with ho | hanswer
      · exact hold t (by simp) ho
      · rw [hanswer]
        exact List.mem_append_right _ (List.mem_singleton_self _)
    · exact hold u (by simp [hu]) ho

/-- What is not counted yet after a call that counts nothing. -/
theorem waiting_step (hstep : Staff.Step codec t op r t') (g : String) :
    waiting (before ++ t' :: after) g ≤
      waiting (before ++ t :: after) g + (memberAnswer g ⟨op, r⟩).toNat := by
  rw [waiting_split, waiting_split]
  by_cases hu : t'.uncounted = some g
  · rcases hstep.uncounted hu with hold | hanswer
    · simp [hu, hold]
    · simp [hu, hanswer]
  · simp [hu]
    omega

/-- The backend after a call, and what is about to be asked of it. -/
theorem Backed.backend_step {s s' : (office C codec).State} {o : (office C codec).Oracle}
    (h : Backed tr ⟨s, before ++ t :: after⟩) (hstep : Staff.Step codec t op r t')
    (hrespond : (office C codec).respond o s op = some (r, s')) :
    Sourced (tr ++ [.call ⟨op, r⟩]) s'.2 (waiting (before ++ t' :: after)) ∧
      ∀ m g, t'.asking = some (m, g) → ToldTotal (tr ++ [.call ⟨op, r⟩]) g m.start := by
  have hasked : ∀ m g, t.asking = some (m, g) → ToldTotal (tr ++ [.call ⟨op, r⟩]) g m.start :=
    fun m g ha => (h.asking t (by simp) m g ha).mono
  have hsource : Sourced (tr ++ [.call ⟨op, r⟩]) s.2 (waiting (before ++ t' :: after)) :=
    h.sourced.step fun g => waiting_step hstep g
  cases op with
  | runtime op =>
      cases hrespond
      refine ⟨hsource, fun m g ha => ?_⟩
      rcases hstep.asking ha with ha | ⟨v, -, heq⟩
      · exact hasked m g ha
      · cases heq
  | broker op =>
      obtain ⟨p, -, heq⟩ := Option.map_eq_some_iff.mp hrespond
      cases heq
      refine ⟨hsource, fun m g ha => ?_⟩
      rcases hstep.asking ha with ha | ⟨v, -, heq⟩
      · exact hasked m g ha
      · cases heq
  | backend op =>
      obtain ⟨p, hp, heq⟩ := Option.map_eq_some_iff.mp hrespond
      cases heq
      have hanswered : ∀ m v, t.outcome = some (m, v) →
          Answered (tr ++ [.call ⟨.backend op, p.1⟩]) m.start v :=
        fun m v ho => (h.outcomes t (by simp) m v ho).mono
      rcases hstep.backend_cases with ⟨m, v, rfl, ho⟩ | ⟨g, n, rfl⟩ |
          ⟨g, m, v, rfl, ho, hu, hu'⟩ | ⟨m, g, rfl, ha⟩
      · cases hp
        refine ⟨hsource.store (x := m.start) (hanswered m v ho), fun m g ha => ?_⟩
        rcases hstep.asking ha with ha | ⟨v, -, heq⟩
        · exact hasked m g ha
        · cases heq
      · cases hp
        refine ⟨hsource.initGroup g n, fun m g ha => ?_⟩
        rcases hstep.asking ha with ha | ⟨v, -, heq⟩
        · exact hasked m g ha
        · cases heq
      · have hless : waiting (before ++ t' :: after) g + 1 ≤ waiting (before ++ t :: after) g := by
          rw [waiting_split, waiting_split]
          simp [hu, hu']
        have hle : ∀ g, waiting (before ++ t' :: after) g ≤ waiting (before ++ t :: after) g := by
          intro g'
          rw [waiting_split, waiting_split]
          simp [hu']
        obtain ⟨m', v', ho', hgroup⟩ := Staff.uncounted_outcome hu
        rw [ho] at ho'
        cases ho'
        have hbefore : Sourced (tr ++ [.call ⟨.backend (.completeGroupMember g m.id v), p.1⟩]) s.2
            (waiting (before ++ t :: after)) := h.sourced.step fun g => Nat.le_add_right _ _
        obtain ⟨hcomplete, hcount⟩ := hbefore.complete (x := m.start) (hanswered m v ho) hgroup hle
          hless
        cases hp
        refine ⟨hcomplete, fun m' g' ha => ?_⟩
        rcases hstep.asking ha with ha | ⟨v', ho', heq⟩
        · exact hasked m' g' ha
        · rw [ho] at ho'
          cases ho'
          obtain ⟨hop, hres⟩ := Event.mk.inj heq
          obtain ⟨rfl, -, -⟩ := ResultBackendOp.completeGroupMember.inj (SystemOp.backend.inj hop)
          refine ⟨v, hanswered m v ho, ?_, hcount _ (eq_of_heq hres)⟩
          rw [heq]
          exact List.mem_append_right _ (List.mem_singleton_self _)
      · cases hp
        refine ⟨hsource, fun m g ha => ?_⟩
        rcases hstep.asking ha with ha | ⟨v, -, heq⟩
        · exact hasked m g ha
        · cases heq

/-- What has been asked after a call. -/
theorem Backed.asked_step {s s' : (office C codec).State} {o : (office C codec).Oracle}
    (h : Backed tr ⟨s, before ++ t :: after⟩) (hstep : Staff.Step codec t op r t')
    (hrespond : (office C codec).respond o s op = some (r, s')) {g : String}
    {answer : TaskResult (List Json)}
    (hcall : (⟨op, r⟩ : Event traits) = ⟨.backend (.getGroupResults g), answer⟩) :
    Justified tr g answer := by
  cases hcall
  have hread : (s.2.getGroupResults g, (s.1, s.2)) = (answer, s') := Option.some.inj hrespond
  cases hread
  constructor
  · rcases hstep.backend_cases with ⟨m, v, hop, -⟩ | ⟨g', n, hop⟩ | ⟨g', m, v, hop, -⟩ |
      ⟨m, g', hop, ha⟩
    · cases hop
    · cases hop
    · cases hop
    · cases hop
      have hmember : m.groupId = some g := Staff.asking_groupId ha
      exact ⟨m.start, hmember, h.asking t (by simp) m g ha⟩
  · intro vs hvs v hv
    unfold MemoryResultBackend.getGroupResults at hvs
    split at hvs
    · cases hvs
    · rename_i st hlookup
      cases hvs
      exact h.sourced.members g st hlookup v hv

/-- A call keeps the account. -/
theorem Backed.call {s s' : (office C codec).State} {o : (office C codec).Oracle}
    (h : Backed tr ⟨s, before ++ t :: after⟩) (hstep : Staff.Step codec t op r t')
    (hrespond : (office C codec).respond o s op = some (r, s')) :
    Backed (tr ++ [.call ⟨op, r⟩]) ⟨s', before ++ t' :: after⟩ := by
  obtain ⟨hsourced, hasking⟩ := h.backend_step hstep hrespond
  refine ⟨h.outcomes_step rfl hstep, fun u hu m g ha => ?_, hsourced, ?_⟩
  · have hold : ∀ u, u ∈ before ++ t :: after → u.asking = some (m, g) →
        ToldTotal (tr ++ [.call ⟨op, r⟩]) g m.start := fun u hu ha => (h.asking u hu m g ha).mono
    rcases List.mem_append.mp hu with hu | hu
    · exact hold u (List.mem_append_left _ hu) ha
    · rcases List.mem_cons.mp hu with rfl | hu
      · exact hasking m g ha
      · exact hold u (by simp [hu]) ha
  · intro tr₁ g answer tr₂ htr
    rcases snoc_eq_append_cons htr with ⟨rfl, hl⟩ | ⟨tr₃, htr⟩
    · exact h.asked_step hstep hrespond (Machine.Label.call.inj hl).symm
    · exact h.asked tr₁ g answer tr₃ htr

end Step

/-- The threads a stimulus starts. -/
def staffEntry (x : (office C codec).Stimulus) (s : (office C codec).State) : List Staff :=
  (x.stages s).map .worker

theorem staff_entry (x : (office C codec).Stimulus) (s s' : (office C codec).State)
    (new : List (Prog traits Unit)) (h : (office C codec).accept x s = some (s', new)) :
    List.Forall₂ (Prog.Follows (staff codec)) new (staffEntry x s) := by
  obtain ⟨b, s⟩ := s
  cases x with
  | enqueue o m =>
      obtain ⟨p, -, heq⟩ := Option.map_eq_some_iff.mp h
      cases heq
      exact .nil
  | arrive w a =>
      obtain ⟨⟨b', m⟩, harrive, heq⟩ := Option.map_eq_some_iff.mp h
      cases heq
      simp only [staffEntry, CarrierStimulus.stages, harrive, Option.bind_some]
      cases m with
      | none => exact .nil
      | some m => exact .cons (executeTask_staff codec w m) .nil

/-- What comes from outside keeps the account. -/
theorem Backed.env {s s' : (office C codec).State} {stages : List Staff}
    {x : (office C codec).Stimulus} {new : List (Prog traits Unit)} (h : Backed tr ⟨s, stages⟩)
    (haccept : (office C codec).accept x s = some (s', new)) :
    Backed (tr ++ [.env x]) ⟨s', stages ++ staffEntry x s⟩ := by
  have hnew : ∀ t ∈ staffEntry x s, ∃ b m, t = .worker (.received b m) := by
    intro t ht
    obtain ⟨t', ht', rfl⟩ := List.mem_map.mp ht
    cases x with
    | enqueue o m => cases ht'
    | arrive w a =>
        obtain ⟨m, -, rfl⟩ := List.mem_map.mp ht'
        exact ⟨_, _, rfl⟩
  have hbackend : s'.2 = s.2 := by
    cases x with
    | enqueue o m =>
        obtain ⟨p, -, heq⟩ := Option.map_eq_some_iff.mp haccept
        cases heq
        rfl
    | arrive w a =>
        obtain ⟨p, -, heq⟩ := Option.map_eq_some_iff.mp haccept
        cases heq
        rfl
  refine ⟨fun t ht m v ho => ?_, fun t ht m g ha => ?_, ?_, fun tr₁ g answer tr₂ htr => ?_⟩
  · rcases List.mem_append.mp ht with ht | ht
    · exact (h.outcomes t ht m v ho).mono
    · obtain ⟨b, m', rfl⟩ := hnew t ht
      cases ho
  · rcases List.mem_append.mp ht with ht | ht
    · exact (h.asking t ht m g ha).mono
    · obtain ⟨b, m', rfl⟩ := hnew t ht
      cases ha
  · rw [hbackend]
    refine h.sourced.step fun g => ?_
    have hnone : (staffEntry x s).countP (fun t => t.uncounted = some g) = 0 := by
      refine List.countP_eq_zero.mpr fun t ht hu => ?_
      obtain ⟨b, m, rfl⟩ := hnew t ht
      cases of_decide_eq_true hu
    rw [waiting, List.countP_append, hnone]
    exact Nat.le_add_right _ _
  · rcases snoc_eq_append_cons htr with ⟨-, hl⟩ | ⟨tr₃, htr⟩
    · cases hl
    · exact h.asked tr₁ g answer tr₃ htr

/-- The clients are about to submit their workflows. -/
theorem backed_start (b₀ : C.broker.State) (canvases : List Canvas) :
    Backed ([] : List (office C codec).Label)
      ⟨(b₀, MemoryResultBackend.new), canvases.map fun canvas => Staff.client (.fresh canvas)⟩ := by
  have hnone : ∀ g, waiting (canvases.map fun canvas => Staff.client (.fresh canvas)) g = 0 := by
    intro g
    simp [waiting, Staff.uncounted, List.countP_map, Function.comp_def]
  refine ⟨fun t ht m v ho => ?_, fun t ht m g ha => ?_, ?_, fun tr₁ g answer tr₂ htr => ?_⟩
  · obtain ⟨canvas, -, rfl⟩ := List.mem_map.mp ht
    cases ho
  · obtain ⟨canvas, -, rfl⟩ := List.mem_map.mp ht
    cases ha
  · refine ⟨fun key v hv => ?_, fun g st hst => ?_, fun g st hst => ?_, fun g st hst => ?_,
      fun g => ?_⟩
    · cases hv
    · cases hst
    · cases hst
    · cases hst
    · rw [hnone g]
      exact Nat.zero_le _
  · simp at htr

/-- The account holds in every reachable state. -/
theorem backed_of_reach {b₀ : C.broker.State} {canvases : List Canvas}
    {c : (office C codec).Config} (h : (office C codec).Reach
      ⟨(b₀, MemoryResultBackend.new), canvases.map fun canvas => canvas.submit codec⟩ tr c) :
    ∃ stages, Backed tr ⟨c.state, stages⟩ := by
  have hclients : List.Forall₂ (Prog.Follows (staff codec))
      (canvases.map fun canvas => canvas.submit codec)
      (canvases.map fun canvas => Staff.client (.fresh canvas)) := by
    rw [List.forall₂_map_left_iff, List.forall₂_map_right_iff]
    exact List.forall₂_same.mpr fun canvas _ => submit_staff codec canvas
  obtain ⟨stages, hstaged, -⟩ := h.staged staff_entry hclients
  refine ⟨stages, ?_⟩
  generalize hc : (⟨c.state, stages⟩ : (office C codec).Staged (staff codec)) = c' at hstaged
  clear hc h
  induction hstaged with
  | start => exact backed_start b₀ canvases
  | step _ hstep ih =>
      cases hstep with
      | call o before after hrespond hstep => exact ih.call hstep hrespond
      | env x stages haccept => exact ih.env haccept

/-- Where results come from.  Over any broker, whatever it delivers: every result was the answer
of a handler that was called with a message of this id; a group has no more results than its
members' handlers have answered, and they are such answers; and the results of a group are asked
for only after the execution of a member was told its own total, after as many answers of
members. -/
theorem results_provenance {b₀ : C.broker.State} (canvases : List Canvas)
    {c : (office C codec).Config} (h : (office C codec).Reach
      ⟨(b₀, MemoryResultBackend.new), canvases.map fun canvas => canvas.submit codec⟩ tr c) :
    (∀ key v, c.state.2.results.lookup key = some v →
      ∃ x, Answered tr x v ∧ x.id.toText = key) ∧
    (∀ g st, c.state.2.groups.lookup g = some st → st.results.length ≤ memberAnswers tr g ∧
      ∀ v ∈ st.results, ∃ x, Answered tr x v ∧ x.groupId = some g) ∧
    ∀ tr₁ g r tr₂, tr = tr₁ ++ .call ⟨.backend (.getGroupResults g), r⟩ :: tr₂ →
      Justified tr₁ g r := by
  obtain ⟨stages, haccount⟩ := backed_of_reach h
  refine ⟨haccount.sourced.results, fun g st hst => ⟨?_, haccount.sourced.members g st hst⟩,
    haccount.asked⟩
  exact (Nat.le_add_left _ _).trans (haccount.sourced.counted g st hst)

end Backend

/-! ## A chord of one -/

/-- The client submits the chord, and a worker executes its member. -/
def memberRun : List wholeMemory.Move :=
  drawsOne.map (.run 0) ++ .env (.arrive ⟨["t"], [], true⟩ ["q"]) :: drawsOne.map (.run 1)

theorem memberRun_plays : ((aboutToSubmit withCallback).playAll memberRun).isSome = true := by
  decide +kernel

theorem results_provenance_member : ∃ (tr : List wholeMemory.Label) (c : wholeMemory.Config)
    (st : GroupState), wholeMemory.Reach (aboutToSubmit withCallback) tr c ∧
      c.state.2.groups.lookup (TaskId.mk 1).toText = some st ∧ st.results.length = 1 ∧
      ∀ v ∈ st.results, ∃ x, @Answered memoryCarrier blankCodec tr x v ∧
        x.groupId = some (TaskId.mk 1).toText := by
  have hreach := Machine.Config.reach_of_get memberRun_plays
  obtain ⟨-, hgroups, -⟩ := results_provenance [withCallback] hreach
  have hsome : (((((aboutToSubmit withCallback).playAll memberRun).get memberRun_plays).2.state.2
      |>.groups.lookup (TaskId.mk 1).toText).map (·.results.length)) = some 1 := by
    decide +kernel
  obtain ⟨st, hst, hlen⟩ := Option.map_eq_some_iff.mp hsome
  exact ⟨_, _, st, hreach, hst, hlen, (hgroups _ st hst).2⟩

end Kojin.Core
