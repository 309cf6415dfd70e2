/-
  Foundation/Twin.lean --- two executions of programs, compared by what is seen of them.

  A view shows of an event a call and its answer, or nothing.  Two executions agree when
  no call they both come to is answered differently.  `Twin view p q S` says that `p`
  and `q` show the same as long as they agree, and return values in the relation `S`.

  The rules are those of a relational program logic: a hidden call may be taken on one
  side alone, a call that is seen is taken on both, and a sequence is compared part by
  part.

  Nothing here mentions a particular program.
-/
import Kojin.Foundation.Prog

set_option autoImplicit false

namespace Kojin.Foundation

/-- Two lists of answered calls never answer the same call differently, up to where they
first differ. -/
def Agree {κ ρ : Type} (xs ys : List (κ × ρ)) : Prop :=
  ∀ (shared : List (κ × ρ)) (c : κ) (a a' : ρ) (rest rest' : List (κ × ρ)),
    xs = shared ++ (c, a) :: rest → ys = shared ++ (c, a') :: rest' → a = a'

section Agreement

variable {κ ρ : Type} {xs xs' ys ys' : List (κ × ρ)}

/-- Lists that agree begin with lists that agree. -/
theorem Agree.left (h : Agree (xs ++ xs') (ys ++ ys')) : Agree xs ys := by
  intro shared c a a' rest rest' hxs hys
  refine h shared c a a' (rest ++ xs') (rest' ++ ys') ?_ ?_
  · rw [hxs, List.append_assoc, List.cons_append]
  · rw [hys, List.append_assoc, List.cons_append]

/-- Lists that agree after a common beginning agree. -/
theorem Agree.right (h : Agree (xs ++ xs') (xs ++ ys')) : Agree xs' ys' := by
  intro shared c a a' rest rest' hxs hys
  refine h (xs ++ shared) c a a' rest rest' ?_ ?_
  · rw [hxs, List.append_assoc]
  · rw [hys, List.append_assoc]

theorem Agree.head {c : κ} {a a' : ρ} (h : Agree ((c, a) :: xs) ((c, a') :: ys)) : a = a' :=
  h [] c a a' xs ys rfl rfl

theorem Agree.tail {x : κ × ρ} (h : Agree (x :: xs) (x :: ys)) : Agree xs ys := by
  have hcons : Agree ([x] ++ xs) ([x] ++ ys) := h
  exact hcons.right

theorem Agree.of_eq (h : xs = ys) : Agree xs ys := by
  intro shared c a a' rest rest' hxs hys
  have heq : shared ++ (c, a) :: rest = shared ++ (c, a') :: rest' := by rw [← hxs, h, hys]
  have hcons := List.append_cancel_left heq
  injection hcons with hpair
  exact congrArg Prod.snd hpair

end Agreement

namespace Prog

variable {I : Interface} {κ ρ α β γ δ : Type} (view : Event I → Option (κ × ρ))

/-- Nothing is seen of a program whose calls are hidden. -/
theorem filterMap_of_hidden {τ : Type} (look : Event I → Option τ) {p : Prog I α}
    {tr : List (Event I)} {a : α} (h : p.Calls fun op => ∀ r, look ⟨op, r⟩ = none)
    (htr : p.Trace tr a) : tr.filterMap look = [] :=
  List.filterMap_eq_nil_iff.mpr fun e he => h.trace htr e he e.res

/-- As long as they agree, two programs show the same, and return related values. -/
def Twin (p : Prog I α) (q : Prog I β) (S : α → β → Prop) : Prop :=
  ∀ tr a tr' b, p.Trace tr a → q.Trace tr' b → Agree (tr.filterMap view) (tr'.filterMap view) →
    tr.filterMap view = tr'.filterMap view ∧ S a b

variable {view} {S : α → β → Prop}

theorem twin_ret {a : α} {b : β} (h : S a b) : Twin view (.ret a : Prog I α) (.ret b) S := by
  intro tr a' tr' b' htr htr' _
  obtain ⟨rfl, rfl⟩ := trace_ret_iff.mp htr
  obtain ⟨rfl, rfl⟩ := trace_ret_iff.mp htr'
  exact ⟨rfl, h⟩

/-- The rule of sequential composition. -/
theorem Twin.bind {p : Prog I α} {q : Prog I β} {f : α → Prog I γ} {g : β → Prog I δ}
    {U : γ → δ → Prop} (h : Twin view p q S) (hfg : ∀ a b, S a b → Twin view (f a) (g b) U) :
    Twin view (p >>= f) (q >>= g) U := by
  intro tr c tr' d htr htr' hagree
  obtain ⟨tr₁, tr₂, a, rfl, hp, hf⟩ := trace_bind_iff.mp htr
  obtain ⟨tr₁', tr₂', b, rfl, hq, hg⟩ := trace_bind_iff.mp htr'
  rw [List.filterMap_append, List.filterMap_append] at hagree ⊢
  obtain ⟨hfirst, hab⟩ := h tr₁ a tr₁' b hp hq hagree.left
  rw [hfirst] at hagree ⊢
  obtain ⟨hsecond, hcd⟩ := hfg a b hab tr₂ c tr₂' d hf hg hagree.right
  exact ⟨by rw [hsecond], hcd⟩

/-- A hidden call on the left. -/
theorem twin_hidden_left {op : I.Op} {k : I.Res op → Prog I α} {q : Prog I β}
    (hidden : ∀ r, view ⟨op, r⟩ = none) (h : ∀ r, Twin view (k r) q S) :
    Twin view (.call op k) q S := by
  intro tr a tr' b htr htr' hagree
  obtain ⟨r, rest, rfl, hk⟩ := trace_call_iff.mp htr
  rw [List.filterMap_cons_none (hidden r)] at hagree ⊢
  exact h r rest a tr' b hk htr' hagree

/-- A hidden call on the right. -/
theorem twin_hidden_right {op : I.Op} {p : Prog I α} {k : I.Res op → Prog I β}
    (hidden : ∀ r, view ⟨op, r⟩ = none) (h : ∀ r, Twin view p (k r) S) :
    Twin view p (.call op k) S := by
  intro tr a tr' b htr htr' hagree
  obtain ⟨r, rest, rfl, hk⟩ := trace_call_iff.mp htr'
  rw [List.filterMap_cons_none (hidden r)] at hagree ⊢
  exact h r tr a rest b htr hk hagree

/-- Calls that are seen alike. -/
theorem twin_seen {op op' : I.Op} {k : I.Res op → Prog I α} {k' : I.Res op' → Prog I β} {c : κ}
    {show_ : I.Res op → ρ} {show' : I.Res op' → ρ} (seen : ∀ r, view ⟨op, r⟩ = some (c, show_ r))
    (seen' : ∀ r, view ⟨op', r⟩ = some (c, show' r))
    (h : ∀ r r', show_ r = show' r' → Twin view (k r) (k' r') S) :
    Twin view (.call op k) (.call op' k') S := by
  intro tr a tr' b htr htr' hagree
  obtain ⟨r, rest, rfl, hk⟩ := trace_call_iff.mp htr
  obtain ⟨r', rest', rfl, hk'⟩ := trace_call_iff.mp htr'
  rw [List.filterMap_cons_some (seen r), List.filterMap_cons_some (seen' r')] at hagree ⊢
  have hanswer := hagree.head
  rw [hanswer] at hagree ⊢
  obtain ⟨hrest, hab⟩ := h r r' hanswer rest a rest' b hk hk' hagree.tail
  exact ⟨by rw [hrest], hab⟩

/-- A program all of whose calls are hidden, on the left. -/
theorem Twin.skip_left {p : Prog I α} {q : Prog I β} {C : I.Op → Prop}
    (hidden : ∀ op, C op → ∀ r, view ⟨op, r⟩ = none) (hp : p.Calls C) {f : α → Prog I γ}
    {U : γ → β → Prop} (h : ∀ a, Twin view (f a) q U) : Twin view (p >>= f) q U := by
  induction p with
  | ret a => exact h a
  | call op k ih => exact twin_hidden_left (hidden op hp.1) fun r => ih r (hp.2 r)

theorem Twin.skip_right {p : Prog I β} {q : Prog I α} {C : I.Op → Prop}
    (hidden : ∀ op, C op → ∀ r, view ⟨op, r⟩ = none) (hp : p.Calls C) {f : β → Prog I γ}
    {U : α → γ → Prop} (h : ∀ b, Twin view q (f b) U) : Twin view q (p >>= f) U := by
  induction p with
  | ret b => exact h b
  | call op k ih => exact twin_hidden_right (hidden op hp.1) fun r => ih r (hp.2 r)

/-- The execution in which every call is answered by a function of the call. -/
def answered (answer : (op : I.Op) → I.Res op) : Prog I α → List (Event I) × α
  | .ret a => ([], a)
  | .call op k =>
      let rest := (k (answer op)).answered answer
      (⟨op, answer op⟩ :: rest.1, rest.2)

theorem trace_answered (answer : (op : I.Op) → I.Res op) (p : Prog I α) :
    p.Trace (p.answered answer).1 (p.answered answer).2 := by
  induction p with
  | ret a => exact .ret a
  | call op k ih => exact .call (ih (answer op))

end Prog

end Kojin.Foundation
