/-
  Foundation/Journal.lean --- which program of a pool has done what.

  A history of `Machine.Reach` is one list of calls and does not say who made them.  A
  journal gives every program a log of its own: the stimulus that started it, and its
  calls with the states around them.  Which stimuli may arrive can depend on the logs so
  far; that is how a journal says what is assumed of the surroundings.

      Journal admits s₀ threads s     from `s₀` to `s`, with these logs and programs

  When every program follows a protocol, `Journal.rule` carries an invariant over logs
  and stages along a journal, one protocol step at a time.

  Nothing here mentions a particular program.
-/
import Kojin.Foundation.Machine

set_option autoImplicit false

namespace Kojin.Foundation

namespace Machine

variable {I : Interface}

/-- A call, and the states around it. -/
structure Call (M : Machine I) where
  before : M.State
  event : Event I
  after : M.State

/-- What started a program, and the calls it has made. -/
structure Log (M : Machine I) where
  origin : M.Stimulus
  calls : List (Call M)

variable {M : Machine I}

/-- The program has been started. -/
def Log.begin (x : M.Stimulus) : Log M := ⟨x, []⟩

/-- The program has made one more call. -/
def Log.add (log : Log M) (call : Call M) : Log M := { log with calls := log.calls ++ [call] }

/-- Some interleaving takes an empty pool to these programs with these logs.  Every
stimulus on the way was admitted by the logs there were. -/
inductive Journal (admits : List (Log M) → M.Stimulus → Prop) (s₀ : M.State) :
    List (Log M × Prog I Unit) → M.State → Prop where
  | start : Journal admits s₀ [] s₀
  | call (o : M.Oracle) {s s' : M.State} {op : I.Op} {r : I.Res op} {log : Log M}
      (k : I.Res op → Prog I Unit) (before after : List (Log M × Prog I Unit)) :
      Journal admits s₀ (before ++ (log, .call op k) :: after) s →
      M.respond o s op = some (r, s') →
      Journal admits s₀ (before ++ (log.add ⟨s, ⟨op, r⟩, s'⟩, k r) :: after) s'
  | env (x : M.Stimulus) {s s' : M.State} {threads : List (Log M × Prog I Unit)}
      {new : List (Prog I Unit)} :
      Journal admits s₀ threads s → admits (threads.map Prod.fst) x →
      M.accept x s = some (s', new) →
      Journal admits s₀ (threads ++ new.map fun p => (.begin x, p)) s'

section Journals

variable {admits : List (Log M) → M.Stimulus → Prop} {s₀ s : M.State}
  {threads : List (Log M × Prog I Unit)}

/-- A journal is one of a history. -/
theorem Journal.reach (h : Journal admits s₀ threads s) :
    ∃ tr, M.Reach ⟨s₀, []⟩ tr ⟨s, threads.map Prod.snd⟩ := by
  induction h with
  | start => exact ⟨[], .start⟩
  | @call o s s' op r log k before after _ hrespond ih =>
      obtain ⟨tr, htr⟩ := ih
      rw [List.map_append, List.map_cons] at htr ⊢
      exact ⟨_, htr.step (.call o k _ _ hrespond)⟩
  | @env x s s' threads new _ _ haccept ih =>
      obtain ⟨tr, htr⟩ := ih
      refine ⟨tr ++ [.env x], .step htr ?_⟩
      have hnew : new.map (Prod.snd ∘ fun p => ((Log.begin x : Log M), p)) = new := List.map_id new
      rw [List.map_append, List.map_map, hnew]
      exact .env x _ haccept

/-- Every history has a journal. -/
theorem Reach.journal {tr : List M.Label} {c : M.Config} (h : M.Reach ⟨s₀, []⟩ tr c) :
    ∃ threads, Journal (fun _ _ => True) s₀ threads c.state ∧
      threads.map Prod.snd = c.threads := by
  induction h with
  | start => exact ⟨[], .start, rfl⟩
  | step _ hstep ih =>
      obtain ⟨threads, hjournal, hthreads⟩ := ih
      cases hstep with
      | @call o s s' op r k before after hrespond =>
          obtain ⟨befores, rest, rfl, hbefore, hrest⟩ := List.map_eq_append_iff.mp hthreads
          obtain ⟨⟨log, p⟩, afters, rfl, hp, hafter⟩ := List.map_eq_cons_iff.mp hrest
          obtain rfl : p = .call op k := hp
          refine ⟨_, .call o k befores afters hjournal hrespond, ?_⟩
          rw [List.map_append, List.map_cons, hbefore, hafter]
      | @env x s s' programs new haccept =>
          obtain rfl : threads.map Prod.snd = programs := hthreads
          refine ⟨_, .env x hjournal trivial haccept, ?_⟩
          rw [List.map_append, List.map_map]
          exact congrArg _ (List.map_id new)

/-- The logs agree, and the program follows the protocol from this stage. -/
def Plays (P : Protocol I) (a : Log M × Prog I Unit) (b : Log M × P.Stage) : Prop :=
  a.1 = b.1 ∧ a.2.Follows P b.2

theorem logs_of_plays {P : Protocol I} {parties : List (Log M × P.Stage)}
    (h : List.Forall₂ (Plays P) threads parties) :
    threads.map Prod.fst = parties.map Prod.fst := by
  induction h with
  | nil => rfl
  | cons hab _ ih => rw [List.map_cons, List.map_cons, hab.1, ih]

/-- The rule for a journal.  The invariant is over the logs and the stages the
programs have reached: a protocol step keeps it, and so does a stimulus that is admitted. -/
theorem Journal.rule {P : Protocol I} {J : List (Log M × P.Stage) → M.State → Prop}
    (hstart : J [] s₀)
    (hcall : ∀ (o : M.Oracle) (s s' : M.State) (op : I.Op) (r : I.Res op) (log : Log M)
      (t t' : P.Stage) (before after : List (Log M × P.Stage)),
      J (before ++ (log, t) :: after) s → M.respond o s op = some (r, s') → P.Step t op r t' →
      J (before ++ (log.add ⟨s, ⟨op, r⟩, s'⟩, t') :: after) s')
    (henv : ∀ (x : M.Stimulus) (s s' : M.State) (new : List (Prog I Unit))
      (parties : List (Log M × P.Stage)),
      J parties s → admits (parties.map Prod.fst) x → M.accept x s = some (s', new) →
      ∃ stages, List.Forall₂ (Prog.Follows P) new stages ∧
        J (parties ++ stages.map fun t => (.begin x, t)) s')
    (h : Journal admits s₀ threads s) :
    ∃ parties, List.Forall₂ (Plays P) threads parties ∧ J parties s := by
  induction h with
  | start => exact ⟨[], .nil, hstart⟩
  | @call o s s' op r log k before after _ hrespond ih =>
      obtain ⟨parties, hall, hinv⟩ := ih
      obtain ⟨us, ⟨log', t⟩, us', rfl, hbefore, ⟨rfl, hfollows⟩, hafter⟩ := forall₂_split hall
      obtain ⟨t', hstep, hk⟩ := hfollows r
      refine ⟨us ++ (log.add ⟨s, ⟨op, r⟩, s'⟩, t') :: us', ?_, ?_⟩
      · exact List.rel_append hbefore (.cons ⟨rfl, hk⟩ hafter)
      · exact hcall o s s' op r log t t' us us' hinv hrespond hstep
  | @env x s s' threads new _ hadmits haccept ih =>
      obtain ⟨parties, hall, hinv⟩ := ih
      rw [logs_of_plays hall] at hadmits
      obtain ⟨stages, hnew, hinv'⟩ := henv x s s' new parties hinv hadmits haccept
      refine ⟨_, List.rel_append hall ?_, hinv'⟩
      rw [List.forall₂_map_left_iff, List.forall₂_map_right_iff]
      exact hnew.imp fun p t hfollows => ⟨rfl, hfollows⟩

end Journals

/-! ## Playing a schedule -/

/-- The logs and programs a decision leads to, if it is possible and passes the test. -/
def write (test : List (Log M) → M.Stimulus → Bool) (c : List (Log M × Prog I Unit) × M.State) :
    M.Move → Option (List (Log M × Prog I Unit) × M.State)
  | .run i o =>
      match c.1[i]? with
      | some (log, .call op k) =>
          (M.respond o c.2 op).map fun p =>
            (c.1.set i (log.add ⟨c.2, ⟨op, p.1⟩, p.2⟩, k p.1), p.2)
      | _ => none
  | .env x =>
      if test (c.1.map Prod.fst) x then
        (M.accept x c.2).map fun p => (c.1 ++ p.2.map fun q => (.begin x, q), p.1)
      else none

/-- The logs and programs a whole schedule leads to, if it is possible and passes the test. -/
def writeAll (test : List (Log M) → M.Stimulus → Bool) :
    List (Log M × Prog I Unit) × M.State → List M.Move →
      Option (List (Log M × Prog I Unit) × M.State)
  | c, [] => some c
  | c, m :: ms => (write test c m).bind fun c' => writeAll test c' ms

section Write

variable {admits : List (Log M) → M.Stimulus → Prop} {test : List (Log M) → M.Stimulus → Bool}
  {s₀ : M.State} {c c' : List (Log M × Prog I Unit) × M.State}

theorem Journal.of_write (htest : ∀ logs x, test logs x = true → admits logs x) {m : M.Move}
    (hc : Journal admits s₀ c.1 c.2) (h : write test c m = some c') :
    Journal admits s₀ c'.1 c'.2 := by
  obtain ⟨threads, s⟩ := c
  cases m with
  | run i o =>
      simp only [write] at h
      split at h
      · rename_i log op k hi
        obtain ⟨⟨r, s'⟩, hrespond, rfl⟩ := Option.map_eq_some_iff.mp h
        obtain ⟨hlt, hget⟩ := List.getElem?_eq_some_iff.mp hi
        have hsplit : threads = threads.take i ++ (log, .call op k) :: threads.drop (i + 1) := by
          rw [← hget, List.getElem_cons_drop, List.take_append_drop]
        rw [hsplit] at hc
        show Journal admits s₀ (threads.set i _) s'
        rw [List.set_eq_take_append_cons_drop, if_pos hlt]
        exact .call o k _ _ hc hrespond
      · cases h
  | env x =>
      simp only [write] at h
      split at h
      · rename_i hpass
        obtain ⟨⟨s', new⟩, haccept, rfl⟩ := Option.map_eq_some_iff.mp h
        exact .env x hc (htest _ _ hpass) haccept
      · cases h

/-- A schedule whose stimuli pass a test is a journal whose stimuli are admitted. -/
theorem Journal.of_writeAll (htest : ∀ logs x, test logs x = true → admits logs x)
    {ms : List M.Move} (hc : Journal admits s₀ c.1 c.2) (h : writeAll test c ms = some c') :
    Journal admits s₀ c'.1 c'.2 := by
  induction ms generalizing c with
  | nil =>
      cases h
      exact hc
  | cons m ms ih =>
      obtain ⟨c₁, hfirst, hrest⟩ := Option.bind_eq_some_iff.mp h
      exact ih (hc.of_write htest hfirst) hrest

end Write

end Machine

end Kojin.Foundation
