/-
  Foundation/Growing.lean --- programs that rely on what they have put in place.

  Where nothing is ever taken back, a program may build on what it has done although
  others run in between.  `Guarded p s` says of a program at a state: whichever later
  state its next call meets, the call is allowed there, and the rest is guarded from
  the state after it.

      Guarded.mono    a guarded program stays guarded while others run
      Guarded.bind    programs compose
      Guarded.frame   what stays true is true at the end
      Reach.growing   in every interleaving all programs are guarded all the time

  Nothing here mentions a particular program.
-/
import Kojin.Foundation.Machine

set_option autoImplicit false

namespace Kojin.Foundation

namespace Prog

variable {I : Interface} {α β : Type} (S : Service I) (le : S.State → S.State → Prop)
  (G : S.State → I.Op → Prop)

/-- Every call is allowed where it is made, and `Q` holds at the end. -/
def Guarded (Q : α → S.State → Prop) : Prog I α → S.State → Prop
  | .ret a, s => Q a s
  | .call op k, s => ∀ s₁, le s s₁ → G s₁ op ∧
      ∀ o r s₂, S.respond o s₁ op = some (r, s₂) → (k r).Guarded Q s₂

variable {S le G} {Q : α → S.State → Prop} {s s' : S.State}

theorem Guarded.mono (htrans : ∀ s₁ s₂ s₃, le s₁ s₂ → le s₂ s₃ → le s₁ s₃)
    (hQ : ∀ a s₁ s₂, le s₁ s₂ → Q a s₁ → Q a s₂) {p : Prog I α} (h : p.Guarded S le G Q s)
    (hle : le s s') : p.Guarded S le G Q s' := by
  cases p with
  | ret a => exact hQ a s s' hle h
  | call op k => exact fun s₁ hs₁ => h s₁ (htrans s s' s₁ hle hs₁)

theorem Guarded.bind {R : β → S.State → Prop} {p : Prog I α} {f : α → Prog I β}
    (h : p.Guarded S le G Q s) (hf : ∀ a s₁, Q a s₁ → (f a).Guarded S le G R s₁) :
    (p >>= f).Guarded S le G R s := by
  induction p generalizing s with
  | ret a => exact hf a s h
  | call op k ih =>
      intro s₁ hs₁
      obtain ⟨hallowed, hrest⟩ := h s₁ hs₁
      exact ⟨hallowed, fun o r s₂ hr => ih r (hrest o r s₂ hr)⟩

theorem Guarded.weaken {R : α → S.State → Prop} (hR : ∀ a s, Q a s → R a s) {p : Prog I α}
    (h : p.Guarded S le G Q s) : p.Guarded S le G R s := by
  induction p generalizing s with
  | ret a => exact hR a s h
  | call op k ih =>
      intro s₁ hs₁
      obtain ⟨hallowed, hrest⟩ := h s₁ hs₁
      exact ⟨hallowed, fun o r s₂ hr => ih r (hrest o r s₂ hr)⟩

/-- Calls that are allowed everywhere. -/
theorem Guarded.of_calls {C : I.Op → Prop} (hC : ∀ op s, C op → G s op) {p : Prog I α}
    (h : p.Calls C) (s : S.State) : p.Guarded S le G (fun _ _ => True) s := by
  induction p generalizing s with
  | ret a => trivial
  | call op k ih => exact fun s₁ _ => ⟨hC op s₁ h.1, fun _ r s₂ _ => ih r (h.2 r) s₂⟩

/-- What stays true stays true while the program runs. -/
theorem Guarded.frame {F : S.State → Prop} (hF : ∀ s₁ s₂, le s₁ s₂ → F s₁ → F s₂)
    (hgrow : ∀ o s₁ op r s₂, S.respond o s₁ op = some (r, s₂) → le s₁ s₂) {p : Prog I α}
    (h : p.Guarded S le G Q s) (hs : F s) : p.Guarded S le G (fun a s => Q a s ∧ F s) s := by
  induction p generalizing s with
  | ret a => exact ⟨h, hs⟩
  | call op k ih =>
      intro s₁ hs₁
      obtain ⟨hallowed, hrest⟩ := h s₁ hs₁
      refine ⟨hallowed, fun o r s₂ hr => ih r (hrest o r s₂ hr) ?_⟩
      exact hF s₁ s₂ (hgrow o s₁ op r s₂ hr) (hF s s₁ hs₁ hs)

end Prog

namespace Machine

variable {I : Interface} {M : Machine I} {c₀ c : M.Config}

/-- In every interleaving the programs are guarded.  A call that is allowed makes the
state grow and keeps an invariant, and so does a stimulus, whose programs start guarded. -/
theorem Reach.growing {le : M.State → M.State → Prop} {G : M.State → I.Op → Prop}
    {J : M.State → Prop} (hrefl : ∀ s, le s s)
    (htrans : ∀ s₁ s₂ s₃, le s₁ s₂ → le s₂ s₃ → le s₁ s₃)
    (hcall : ∀ o s op r s', J s → G s op → M.respond o s op = some (r, s') → J s' ∧ le s s')
    (henv : ∀ x s s' new, J s → M.accept x s = some (s', new) →
      J s' ∧ le s s' ∧ ∀ p ∈ new, p.Guarded M.toService le G (fun _ _ => True) s')
    (hthreads : ∀ p ∈ c₀.threads, p.Guarded M.toService le G (fun _ _ => True) c₀.state)
    (hJ : J c₀.state) {tr : List M.Label} (h : M.Reach c₀ tr c) :
    J c.state ∧ le c₀.state c.state ∧
      ∀ p ∈ c.threads, p.Guarded M.toService le G (fun _ _ => True) c.state := by
  induction h with
  | start => exact ⟨hJ, hrefl _, hthreads⟩
  | step _ hstep ih =>
      obtain ⟨hinv, hle, hpool⟩ := ih
      cases hstep with
      | @call o s s' op r k before after hr =>
          have hp := hpool (.call op k) (List.mem_append.mpr (.inr List.mem_cons_self))
          obtain ⟨hallowed, hrest⟩ := hp s (hrefl s)
          obtain ⟨hinv', hle'⟩ := hcall o s op r s' hinv hallowed hr
          have hlater : ∀ p ∈ before ++ .call op k :: after,
              p.Guarded M.toService le G (fun _ _ => True) s' :=
            fun p hmem => (hpool p hmem).mono htrans (fun _ _ _ _ _ => trivial) hle'
          refine ⟨hinv', htrans _ _ _ hle hle', fun p hmem => ?_⟩
          rcases List.mem_append.mp hmem with hmem | hmem
          · exact hlater p (List.mem_append.mpr (.inl hmem))
          · rcases List.mem_cons.mp hmem with rfl | hmem
            · exact hrest o r s' hr
            · exact hlater p (List.mem_append.mpr (.inr (List.mem_cons_of_mem _ hmem)))
      | @env x s s' threads new haccept =>
          obtain ⟨hinv', hle', hnew⟩ := henv x s s' new hinv haccept
          refine ⟨hinv', htrans _ _ _ hle hle', fun p hmem => ?_⟩
          rcases List.mem_append.mp hmem with hmem | hmem
          · exact (hpool p hmem).mono htrans (fun _ _ _ _ _ => trivial) hle'
          · exact hnew p hmem

end Machine

end Kojin.Foundation
