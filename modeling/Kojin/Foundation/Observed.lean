/-
  Foundation/Observed.lean --- histories as an observer of the state writes them down.

  The labels of a history are calls and stimuli.  What a property speaks about is often
  something else: the time a call was answered at, the items a script moved.  An
  observer sees every step with the states around it and notes what it wants.

      Observed note c₀ ns c     some history from `c₀` to `c` left these notes

  `Observed.rule` is the induction that every such property goes through: when all the
  programs make calls of one kind only, an invariant over notes and state is kept if
  every answer to such a call and every stimulus keeps it.  `Observed.promises` is the
  same for programs that follow a protocol, where a stage can rely on what was noted.

  Nothing here mentions a particular program.
-/
import Kojin.Foundation.Machine

set_option autoImplicit false

namespace Kojin.Foundation

namespace Machine

variable {I : Interface} {M : Machine I} {ν : Type}

/-- Histories, with what the observer notes at each step. -/
inductive Observed (note : M.State → M.Label → M.State → List ν) (c₀ : M.Config) :
    List ν → M.Config → Prop where
  | start : Observed note c₀ [] c₀
  | step {ns : List ν} {c c' : M.Config} {l : M.Label} :
      Observed note c₀ ns c → M.Step c l c' →
      Observed note c₀ (ns ++ note c.state l c'.state) c'

variable {note : M.State → M.Label → M.State → List ν} {c₀ c : M.Config} {ns : List ν}

/-- Every history leaves notes. -/
theorem Reach.observed {tr : List M.Label} (h : M.Reach c₀ tr c) :
    ∃ ns, Observed note c₀ ns c := by
  induction h with
  | start => exact ⟨[], .start⟩
  | step _ hstep ih =>
      obtain ⟨ns, hns⟩ := ih
      exact ⟨_, hns.step hstep⟩

/-- Notes are left by a history. -/
theorem Observed.reach (h : Observed note c₀ ns c) : ∃ tr, M.Reach c₀ tr c := by
  induction h with
  | start => exact ⟨[], .start⟩
  | step _ hstep ih =>
      obtain ⟨tr, htr⟩ := ih
      exact ⟨_, htr.step hstep⟩

/-- The rule for an observed history.  The programs make calls of one kind; what
every answer to such a call and every stimulus keeps, the history keeps. -/
theorem Observed.rule {C : I.Op → Prop} {J : List ν → M.State → Prop}
    (hentry : ∀ x s s' new, M.accept x s = some (s', new) → ∀ p ∈ new, p.Calls C)
    (henv : ∀ ns x s s' new, J ns s → M.accept x s = some (s', new) →
      J (ns ++ note s (.env x) s') s')
    (hcall : ∀ ns o s op r s', J ns s → C op → M.respond o s op = some (r, s') →
      J (ns ++ note s (.call ⟨op, r⟩) s') s')
    (hthreads : ∀ p ∈ c₀.threads, p.Calls C) (hstart : J [] c₀.state)
    (h : Observed note c₀ ns c) : J ns c.state ∧ ∀ p ∈ c.threads, p.Calls C := by
  induction h with
  | start => exact ⟨hstart, hthreads⟩
  | step _ hstep ih =>
      obtain ⟨hinv, hcalls⟩ := ih
      cases hstep with
      | @call o s s' op r k before after hrespond =>
          have hp : (Prog.call op k).Calls C :=
            hcalls _ (List.mem_append.mpr (.inr List.mem_cons_self))
          refine ⟨hcall _ o s op r s' hinv hp.1 hrespond, fun p hmem => ?_⟩
          rcases List.mem_append.mp hmem with hmem | hmem
          · exact hcalls p (List.mem_append.mpr (.inl hmem))
          · rcases List.mem_cons.mp hmem with rfl | hmem
            · exact hp.2 r
            · exact hcalls p (List.mem_append.mpr (.inr (List.mem_cons_of_mem _ hmem)))
      | @env x s s' threads new haccept =>
          refine ⟨henv _ x s s' new hinv haccept, fun p hmem => ?_⟩
          rcases List.mem_append.mp hmem with hmem | hmem
          · exact hcalls p hmem
          · exact hentry x s s' new haccept p hmem

/-- The rule for programs that follow a protocol.  Every stage comes with what the
notes must show by then, which later notes do not undo.  A protocol step that is answered
keeps what is known of the state, and shows what its next stage comes with. -/
theorem Observed.promises {P : Protocol I} {J : List ν → M.State → Prop}
    {G : List ν → P.Stage → Prop} (hmono : ∀ ns ms t, G ns t → G (ns ++ ms) t)
    (hentry : ∀ ns x s s' new, J ns s → M.accept x s = some (s', new) →
      J (ns ++ note s (.env x) s') s' ∧ ∃ stages, List.Forall₂ (Prog.Follows P) new stages ∧
        ∀ t ∈ stages, G (ns ++ note s (.env x) s') t)
    (hcall : ∀ ns o s op r s' t t', J ns s → G ns t → M.respond o s op = some (r, s') →
      P.Step t op r t' →
      J (ns ++ note s (.call ⟨op, r⟩) s') s' ∧ G (ns ++ note s (.call ⟨op, r⟩) s') t')
    (hthreads : c₀.threads = []) (hstart : J [] c₀.state) (h : Observed note c₀ ns c) :
    J ns c.state ∧ ∃ stages, List.Forall₂ (Prog.Follows P) c.threads stages ∧
      ∀ t ∈ stages, G ns t := by
  induction h with
  | start =>
      refine ⟨hstart, [], ?_, fun t ht => (List.not_mem_nil ht).elim⟩
      rw [hthreads]
      exact .nil
  | step _ hstep ih =>
      obtain ⟨hinv, stages, hall, hgood⟩ := ih
      cases hstep with
      | @call o s s' op r k before after hrespond =>
          obtain ⟨ts, t, ts', rfl, hbefore, hfollows, hafter⟩ := forall₂_split hall
          obtain ⟨t', hpstep, hk⟩ := hfollows r
          have ht : G _ t := hgood t (List.mem_append.mpr (.inr List.mem_cons_self))
          obtain ⟨hinv', ht'⟩ := hcall _ o s op r s' t t' hinv ht hrespond hpstep
          refine ⟨hinv', ts ++ t' :: ts', List.rel_append hbefore (.cons hk hafter), ?_⟩
          intro u hu
          rcases List.mem_append.mp hu with hu | hu
          · exact hmono _ _ u (hgood u (List.mem_append.mpr (.inl hu)))
          rcases List.mem_cons.mp hu with rfl | hu
          · exact ht'
          · exact hmono _ _ u (hgood u (List.mem_append.mpr (.inr (List.mem_cons_of_mem _ hu))))
      | @env x s s' threads new haccept =>
          obtain ⟨hinv', stages', hall', hgood'⟩ := hentry _ x s s' new hinv haccept
          refine ⟨hinv', stages ++ stages', List.rel_append hall hall', fun u hu => ?_⟩
          rcases List.mem_append.mp hu with hu | hu
          · exact hmono _ _ u (hgood u hu)
          · exact hgood' u hu

/-- The rule for what is true of the state alone. -/
theorem Reach.rule {C : I.Op → Prop} {J : M.State → Prop}
    (hentry : ∀ x s s' new, M.accept x s = some (s', new) → ∀ p ∈ new, p.Calls C)
    (henv : ∀ x s s' new, J s → M.accept x s = some (s', new) → J s')
    (hcall : ∀ o s op r s', J s → C op → M.respond o s op = some (r, s') → J s')
    (hthreads : ∀ p ∈ c₀.threads, p.Calls C) (hstart : J c₀.state) {tr : List M.Label}
    (h : M.Reach c₀ tr c) : J c.state ∧ ∀ p ∈ c.threads, p.Calls C := by
  obtain ⟨ns, hns⟩ : ∃ ns, Observed (fun _ _ _ => ([] : List Unit)) c₀ ns c := h.observed
  exact hns.rule (J := fun _ s => J s) hentry (fun _ x s s' new hs => henv x s s' new hs)
    (fun _ o s op r s' hs => hcall o s op r s' hs) hthreads hstart

/-- The notes of a schedule. -/
def Config.notesOf (note : M.State → M.Label → M.State → List ν) (c : M.Config) :
    List M.Move → Option (List ν × M.Config)
  | [] => some ([], c)
  | m :: ms =>
      match c.play m with
      | none => none
      | some (l, c') =>
          (c'.notesOf note ms).map fun p => (note c.state l c'.state ++ p.1, p.2)

/-- Observed histories compose. -/
theorem Observed.trans {c₁ c₂ : M.Config} {ns₁ ns₂ : List ν} (h₁ : Observed note c₀ ns₁ c₁)
    (h₂ : Observed note c₁ ns₂ c₂) : Observed note c₀ (ns₁ ++ ns₂) c₂ := by
  induction h₂ with
  | start => simpa using h₁
  | step _ hstep ih =>
      rw [← List.append_assoc]
      exact ih.step hstep

/-- A schedule that plays through leaves its notes. -/
theorem Config.observed_of_notesOf {ms : List M.Move} {c c' : M.Config} {ns : List ν}
    (h : c.notesOf note ms = some (ns, c')) : Observed note c ns c' := by
  induction ms generalizing c ns with
  | nil =>
      cases h
      exact .start
  | cons m ms ih =>
      simp only [notesOf] at h
      split at h
      · cases h
      · rename_i l c₁ hm
        obtain ⟨⟨tail, c₂⟩, hrest, heq⟩ := Option.map_eq_some_iff.mp h
        cases heq
        have hfirst : Observed note c ([] ++ note c.state l c₁.state) c₁ :=
          Observed.start.step (step_of_play hm)
        rw [List.nil_append] at hfirst
        exact hfirst.trans (ih hrest)

/-- A schedule that is known to play through leaves its notes. -/
theorem Config.observed_of_get {c : M.Config} {ms : List M.Move}
    (h : (c.notesOf note ms).isSome = true) :
    Observed note c ((c.notesOf note ms).get h).1 ((c.notesOf note ms).get h).2 :=
  observed_of_notesOf (Option.some_get h).symm

end Machine

end Kojin.Foundation
