/-
  Foundation/Lineage.lean --- what one program of a pool sets off.

  Programs pass things on: a call may send an item, and a stimulus that delivers an
  item may start programs.  `Lineage` follows a run and keeps what descends from one
  program: the calls it has made, the programs that are its own or were started for an
  item of the lineage, and the items these have sent.  The rest of the pool is not
  watched and may do anything.

  Nothing here mentions a particular program.
-/
import Kojin.Foundation.Machine
import Mathlib.Data.Set.Basic

set_option autoImplicit false

namespace Kojin.Foundation

/-- What is known of a lineage: the calls of its first program, the positions of its
programs in the pool, and the items they have sent. -/
structure Watch (I : Interface) (X : Type) where
  own : List (Event I)
  threads : Set Nat
  items : Set X

namespace Machine

variable {I : Interface} {M : Machine I} {X : Type}

/-- A run, and the lineage of the program at position `i` along it. -/
inductive Lineage (sends : I.Op → Option X) (delivers : M.Stimulus → M.State → Option X)
    (c₀ : M.Config) (i : Nat) : Watch I X → M.Config → Prop where
  | start : Lineage sends delivers c₀ i ⟨[], {i}, ∅⟩ c₀
  | call (o : M.Oracle) {W : Watch I X} {s s' : M.State} {op : I.Op} {r : I.Res op}
      (k : I.Res op → Prog I Unit) (before after : List (Prog I Unit)) :
      Lineage sends delivers c₀ i W ⟨s, before ++ .call op k :: after⟩ →
      M.respond o s op = some (r, s') →
      Lineage sends delivers c₀ i
        ⟨if before.length = i then W.own ++ [⟨op, r⟩] else W.own, W.threads,
          {x | x ∈ W.items ∨ (before.length ∈ W.threads ∧ sends op = some x)}⟩
        ⟨s', before ++ k r :: after⟩
  | env (x : M.Stimulus) {W : Watch I X} {s s' : M.State} (threads : List (Prog I Unit))
      {new : List (Prog I Unit)} :
      Lineage sends delivers c₀ i W ⟨s, threads⟩ → M.accept x s = some (s', new) →
      Lineage sends delivers c₀ i
        ⟨W.own, {j | j ∈ W.threads ∨ (threads.length ≤ j ∧ j < (threads ++ new).length ∧
          ∃ y ∈ W.items, delivers x s = some y)}, W.items⟩
        ⟨s', threads ++ new⟩

section Lineage

variable {sends : I.Op → Option X} {delivers : M.Stimulus → M.State → Option X}
  {c₀ c : M.Config} {i : Nat} {W : Watch I X}

/-- Every lineage is that of a run. -/
theorem Lineage.reach (h : Lineage sends delivers c₀ i W c) : ∃ tr, M.Reach c₀ tr c := by
  induction h with
  | start => exact ⟨[], .start⟩
  | call o k before after _ hrespond ih =>
      obtain ⟨tr, htr⟩ := ih
      exact ⟨_, htr.step (.call o k before after hrespond)⟩
  | env x threads _ haccept ih =>
      obtain ⟨tr, htr⟩ := ih
      exact ⟨_, htr.step (.env x threads haccept)⟩

/-- The program the lineage starts with belongs to it, and so does what it sends. -/
theorem Lineage.own_sends (h : Lineage sends delivers c₀ i W c) :
    i ∈ W.threads ∧ ∀ e ∈ W.own, ∀ x, sends e.op = some x → x ∈ W.items := by
  induction h with
  | start => exact ⟨rfl, nofun⟩
  | @call o W s s' op r k before after _ _ ih =>
      refine ⟨ih.1, fun e he x hx => ?_⟩
      by_cases hbefore : before.length = i
      · rw [if_pos hbefore] at he
        rcases List.mem_append.mp he with he | he
        · exact .inl (ih.2 e he x hx)
        · rw [List.mem_singleton] at he
          subst he
          exact .inr ⟨hbefore ▸ ih.1, hx⟩
      · rw [if_neg hbefore] at he
        exact .inl (ih.2 e he x hx)
  | env x threads _ _ ih => exact ⟨.inl ih.1, ih.2⟩

/-- A program that goes on alone makes its calls, and adds to the lineage what they send. -/
theorem Lineage.run_alone {os : List M.Oracle} {p : Prog I Unit} {s s' : M.State}
    {tr : List (Event I)} (hrun : M.toService.run os p s = some (tr, (), s'))
    {own : List (Event I)} {items : Set X}
    (h : Lineage sends delivers c₀ 0 ⟨own, {0}, items⟩ ⟨s, [p]⟩) :
    Lineage sends delivers c₀ 0
      ⟨own ++ tr, {0}, {x | x ∈ items ∨ ∃ e ∈ tr, sends e.op = some x}⟩ ⟨s', [.ret ()]⟩ := by
  induction p generalizing os s tr own items with
  | ret u =>
      obtain ⟨rfl, -, rfl⟩ := Service.run_ret_iff.mp hrun
      simpa using h
  | call op k ih =>
      obtain ⟨o, rest, r, s₁, tail, -, hrespond, rfl, hrest⟩ := Service.run_call_iff.mp hrun
      have hnext := ih r hrest (Lineage.call o k [] [] h hrespond)
      have hitems : {x | (x ∈ items ∨ ((0 : Nat) = 0 ∧ sends op = some x)) ∨
            ∃ e ∈ tail, sends e.op = some x} =
          {x | x ∈ items ∨ ∃ e ∈ (⟨op, r⟩ : Event I) :: tail, sends e.op = some x} := by
        ext x
        simp [or_assoc]
      rw [← hitems, List.append_cons]
      exact hnext

/-- What descends from a program that is the whole pool is what it sends. -/
theorem Lineage.alone {os : List M.Oracle} {p : Prog I Unit} {s s' : M.State}
    {tr : List (Event I)} (hrun : M.toService.run os p s = some (tr, (), s')) :
    Lineage sends delivers ⟨s, [p]⟩ 0 ⟨tr, {0}, {x | ∃ e ∈ tr, sends e.op = some x}⟩
      ⟨s', [.ret ()]⟩ := by
  have hstart : Lineage sends delivers ⟨s, [p]⟩ 0 ⟨[], {0}, ∅⟩ ⟨s, [p]⟩ := .start
  simpa using hstart.run_alone hrun

/-- When one program of a pool goes on, the others are where they were. -/
theorem getElem?_replace {before after : List (Prog I Unit)} {p q : Prog I Unit} {j : Nat}
    (h : j ≠ before.length) : (before ++ p :: after)[j]? = (before ++ q :: after)[j]? := by
  rcases Nat.lt_or_ge j before.length with hlt | hge
  · rw [List.getElem?_append_left hlt, List.getElem?_append_left hlt]
  · rw [List.getElem?_append_right hge, List.getElem?_append_right hge]
    obtain ⟨n, hn⟩ : ∃ n, j - before.length = n + 1 := ⟨j - before.length - 1, by omega⟩
    rw [hn, List.getElem?_cons_succ, List.getElem?_cons_succ]

theorem getElem?_here {before after : List (Prog I Unit)} {p : Prog I Unit} :
    (before ++ p :: after)[before.length]? = some p := by
  rw [List.getElem?_append_right (Nat.le_refl _), Nat.sub_self, List.getElem?_cons_zero]

/-- The calls that send good items only. -/
def SendsOnly (sends : I.Op → Option X) (good : X → Prop) (op : I.Op) : Prop :=
  ∀ x, sends op = some x → good x

/-- What the rule below carries along a run: the programs of the lineage are in the pool
and send good items only, and so has been everything they sent. -/
structure Wholesome (sends : I.Op → Option X) (good : X → Prop) (W : Watch I X)
    (c : M.Config) : Prop where
  items : ∀ x ∈ W.items, good x
  threads : ∀ j ∈ W.threads, ∃ p, c.threads[j]? = some p ∧ p.Calls (SendsOnly sends good)

/-- The rule for a lineage.  The first program makes one call that sends nothing; then
it sends good items only, and so do the programs that are started for good items.  Which
items are good may depend on the answer to the first call. -/
theorem Lineage.rule {op₀ : I.Op} {k₀ : I.Res op₀ → Prog I Unit}
    {G : I.Res op₀ → X → Prop} (hfirst : c₀.threads[i]? = some (.call op₀ k₀))
    (hquiet : sends op₀ = none) (hk₀ : ∀ r, (k₀ r).Calls (SendsOnly sends (G r)))
    (hentry : ∀ r x s s' new y, M.accept x s = some (s', new) → delivers x s = some y →
      G r y → ∀ p ∈ new, p.Calls (SendsOnly sends (G r)))
    (h : Lineage sends delivers c₀ i W c) :
    (W.own = [] ∧ W.threads = {i} ∧ W.items = ∅ ∧ c.threads[i]? = some (.call op₀ k₀)) ∨
      ∃ r rest, W.own = ⟨op₀, r⟩ :: rest ∧ Wholesome sends (G r) W c := by
  induction h with
  | start => exact .inl ⟨rfl, rfl, rfl, hfirst⟩
  | @call o W s s' op r k before after _ _ ih =>
      rcases ih with ⟨hown, hthreads, hitems, hprog⟩ | ⟨r₀, rest, hown, hgood⟩
      · by_cases hbefore : before.length = i
        · subst hbefore
          rw [getElem?_here] at hprog
          cases hprog
          refine .inr ⟨r, [], by simp [hown], ?_, ?_⟩
          · rintro x (hx | ⟨-, hx⟩)
            · rw [hitems] at hx
              exact hx.elim
            · rw [hquiet] at hx
              cases hx
          · intro j hj
            have hj' : j ∈ W.threads := hj
            rw [hthreads] at hj'
            obtain rfl : j = before.length := hj'
            exact ⟨_, getElem?_here, hk₀ r⟩
        · refine .inl ⟨by rw [if_neg hbefore, hown], hthreads, ?_, ?_⟩
          · refine Set.eq_empty_iff_forall_notMem.mpr ?_
            rintro x (hx | ⟨hmem, -⟩)
            · rw [hitems] at hx
              exact hx
            · rw [hthreads] at hmem
              exact hbefore hmem
          · exact (getElem?_replace (Ne.symm hbefore)).trans hprog
      · refine .inr ⟨r₀, if before.length = i then rest ++ [⟨op, r⟩] else rest, ?_, ?_, ?_⟩
        · by_cases hbefore : before.length = i <;> simp [hbefore, hown]
        · rintro x (hx | ⟨hmem, hx⟩)
          · exact hgood.items x hx
          · obtain ⟨p, hp, hcalls⟩ := hgood.threads _ hmem
            cases getElem?_here.symm.trans hp
            exact hcalls.1 x hx
        · intro j hj
          obtain ⟨p, hp, hcalls⟩ := hgood.threads j hj
          by_cases hbefore : j = before.length
          · subst hbefore
            cases getElem?_here.symm.trans hp
            exact ⟨_, getElem?_here, hcalls.2 r⟩
          · exact ⟨p, (getElem?_replace hbefore).trans hp, hcalls⟩
  | @env x W s s' threads new _ haccept ih =>
      have hold : ∀ {j : Nat} {p : Prog I Unit}, threads[j]? = some p →
          (threads ++ new)[j]? = some p := by
        intro j p hp
        obtain ⟨hlt, -⟩ := List.getElem?_eq_some_iff.mp hp
        rw [List.getElem?_append_left hlt]
        exact hp
      rcases ih with ⟨hown, hthreads, hitems, hprog⟩ | ⟨r₀, rest, hown, hgood⟩
      · refine .inl ⟨hown, ?_, hitems, hold hprog⟩
        ext j
        constructor
        · rintro (hj | ⟨-, -, y, hy, -⟩)
          · exact hthreads ▸ hj
          · rw [hitems] at hy
            exact hy.elim
        · exact fun hj => .inl (hthreads ▸ hj)
      · refine .inr ⟨r₀, rest, hown, hgood.items, ?_⟩
        rintro j (hj | ⟨hge, hlt, y, hy, hdelivers⟩)
        · obtain ⟨p, hp, hcalls⟩ := hgood.threads j hj
          exact ⟨p, hold hp, hcalls⟩
        · have hp := List.getElem?_eq_getElem hlt
          refine ⟨_, hp, hentry r₀ x s s' new y haccept hdelivers (hgood.items y hy) _ ?_⟩
          rw [List.getElem?_append_right hge] at hp
          exact List.mem_of_getElem? hp

end Lineage

end Machine

/-- A program that follows a protocol makes the calls its stages allow. -/
theorem Prog.Follows.calls {I : Interface} {P : Protocol I} {C : I.Op → Prop}
    {ok : P.Stage → Prop} (hanswer : ∀ op, Nonempty (I.Res op))
    (hstep : ∀ t op r t', ok t → P.Step t op r t' → C op ∧ ok t') {p : Prog I Unit}
    {t : P.Stage} (h : p.Follows P t) (ht : ok t) : p.Calls C := by
  induction p generalizing t with
  | ret a => trivial
  | call op k ih =>
      refine ⟨?_, fun r => ?_⟩
      · obtain ⟨r⟩ := hanswer op
        obtain ⟨t', ht', -⟩ := h r
        exact (hstep t op r t' ht ht').1
      · obtain ⟨t', ht', hk⟩ := h r
        exact ih r hk (hstep t op r t' ht ht').2

end Kojin.Foundation
