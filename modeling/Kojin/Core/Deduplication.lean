/-
  Core/Deduplication.lean --- what the deduplication middleware lets through
  (`kojin-core`: `middleware/dedup.rs`).

  A history is a list of calls with the instants they read.  The middleware keeps one
  instant for each key, the last one at which the key was let through, and `cleanup`
  forgets some of them; the specification looks back at all of them.  `Remembers` is
  what the two have in common: from now on they agree about every key.
-/
import Kojin.Core.Middleware
import Mathlib.Data.List.ReduceOption

set_option autoImplicit false

namespace Kojin.Core

open Kojin.Foundation

namespace DeduplicationMiddleware

/-- `cleanup`, at the instant it reads. -/
def cleanup (now : Nat) (q : DeduplicationMiddleware) : DeduplicationMiddleware :=
  { q with seen := Table.retain (fun last => now - last < q.ttl) q.seen }

end DeduplicationMiddleware

/-- A call of the middleware. -/
inductive DedupCall where
  | before (m : TaskMessage)
  | cleanup

/-- Whether it decides about a message. -/
def DedupCall.decides : DedupCall → Bool
  | .before _ => true
  | .cleanup => false

/-- Calls with the instants they read. -/
abbrev DedupHistory : Type := List (Nat × DedupCall)

/-- The instants do not decrease. -/
def DedupHistory.InOrder (history : DedupHistory) : Prop :=
  history.Pairwise fun c c' => c.1 ≤ c'.1

namespace DeduplicationMiddleware

/-- One call: what `before` answers. -/
def call (q : DeduplicationMiddleware) :
    Nat × DedupCall → Option (TaskResult Unit) × DeduplicationMiddleware
  | (now, .before m) => (some (q.before now m).1, (q.before now m).2)
  | (now, .cleanup) => (none, q.cleanup now)

/-- What the calls of a history answer. -/
def answers : DeduplicationMiddleware → DedupHistory → List (Option (TaskResult Unit))
  | _, [] => []
  | q, c :: rest => (q.call c).1 :: answers (q.call c).2 rest

end DeduplicationMiddleware

/-! ## The specification -/

/-- The messages that have been let through, by instant and key. -/
abbrev Accepted : Type := List (Nat × String)

/-- The key was let through less than a TTL before `now`. -/
def Accepted.Within (accepted : Accepted) (ttl now : Nat) (key : String) : Prop :=
  ∃ last, (last, key) ∈ accepted ∧ now - last < ttl

/-- The middleware knows of every key what the specification does, from `clock` on. -/
structure Remembers (q : DeduplicationMiddleware) (accepted : Accepted) (clock : Nat) : Prop where
  past : ∀ e ∈ accepted, e.1 ≤ clock
  agrees : ∀ now key, clock ≤ now → (q.recent now key = true ↔ accepted.Within q.ttl now key)

section Remembering

variable {q : DeduplicationMiddleware} {accepted : Accepted} {clock now : Nat}

theorem recent_iff {key : String} :
    q.recent now key = true ↔ ∃ last, q.seen.lookup key = some last ∧ now - last < q.ttl := by
  unfold DeduplicationMiddleware.recent
  cases q.seen.lookup key <;> simp

theorem remembers_new (ttl : Nat) : Remembers (.new ttl) [] 0 where
  past _ he := nomatch he
  agrees _ _ _ := by
    rw [recent_iff]
    exact ⟨fun ⟨_, hnone, _⟩ => (nomatch hnone), fun ⟨_, hnone, _⟩ => (nomatch hnone)⟩

theorem Remembers.later (h : Remembers q accepted clock) (hle : clock ≤ now) :
    Remembers q accepted now where
  past e he := (h.past e he).trans hle
  agrees t key ht := h.agrees t key (hle.trans ht)

/-- A key that is let through is remembered at its latest instant, which is the one that
matters. -/
theorem Remembers.accept (h : Remembers q accepted clock) (hle : clock ≤ now) (key : String) :
    Remembers { q with seen := q.seen.insert key now } (accepted ++ [(now, key)]) now := by
  refine ⟨fun e he => ?_, fun t k ht => ?_⟩
  · rcases List.mem_append.mp he with he | he
    · exact (h.past e he).trans hle
    · cases List.mem_singleton.mp he
      exact le_refl _
  · rw [recent_iff]
    show (∃ last, (q.seen.insert key now).lookup k = some last ∧ t - last < q.ttl) ↔ _
    by_cases hk : k = key
    · subst hk
      rw [AList.lookup_insert]
      constructor
      · rintro ⟨last, hlast, hlt⟩
        cases hlast
        exact ⟨now, List.mem_append_right _ List.mem_cons_self, hlt⟩
      · rintro ⟨last, hmem, hlt⟩
        refine ⟨now, rfl, ?_⟩
        have hpast : last ≤ now := by
          rcases List.mem_append.mp hmem with hmem | hmem
          · exact (h.past _ hmem).trans hle
          · cases List.mem_singleton.mp hmem
            exact le_refl _
        show t - now < q.ttl
        have hlt' : t - last < q.ttl := hlt
        omega
    · rw [AList.lookup_insert_ne hk, ← recent_iff, h.agrees t k (hle.trans ht)]
      constructor
      · rintro ⟨last, hmem, hlt⟩
        exact ⟨last, List.mem_append_left _ hmem, hlt⟩
      · rintro ⟨last, hmem, hlt⟩
        rcases List.mem_append.mp hmem with hmem | hmem
        · exact ⟨last, hmem, hlt⟩
        · cases List.mem_singleton.mp hmem
          exact absurd rfl hk

/-- What a cleanup forgets is out of the window, and stays so. -/
theorem Remembers.cleanup (h : Remembers q accepted clock) (hle : clock ≤ now) :
    Remembers (q.cleanup now) accepted now := by
  refine ⟨fun e he => (h.past e he).trans hle, fun t key ht => ?_⟩
  show _ ↔ accepted.Within q.ttl t key
  rw [← h.agrees t key (hle.trans ht), recent_iff, recent_iff]
  show (∃ last, (Table.retain _ q.seen).lookup key = some last ∧ t - last < q.ttl) ↔ _
  rw [Table.lookup_retain]
  constructor
  · rintro ⟨last, hlast, hlt⟩
    exact ⟨last, (Option.filter_eq_some_iff.mp hlast).1, hlt⟩
  · rintro ⟨last, hlast, hlt⟩
    refine ⟨last, Option.filter_eq_some_iff.mpr ⟨hlast, ?_⟩, hlt⟩
    rw [decide_eq_true_eq]
    omega

end Remembering

/-! ## Histories -/

/-- The call lets a message with this key through. -/
def LetsThrough (history : DedupHistory) (answers : List (Option (TaskResult Unit))) (j : Nat)
    (now : Nat) (key : String) : Prop :=
  ∃ m, history[j]? = some (now, .before m) ∧ m.dedupKey = some key ∧
    answers[j]? = some (some (.ok ()))

/-- The decision about a message by what has been let through. -/
def FreshKey (accepted : Accepted) (ttl now : Nat) (m : TaskMessage) : Prop :=
  ∀ key, m.dedupKey = some key → ¬ accepted.Within ttl now key

section Histories

variable {q : DeduplicationMiddleware} {accepted : Accepted} {clock now : Nat}
  {history : DedupHistory}

/-- One decision: the message is let through if its key is fresh, and refused by name
else. -/
theorem before_cases (h : Remembers q accepted clock) (hle : clock ≤ now) (m : TaskMessage) :
    (FreshKey accepted q.ttl now m ∧ (q.before now m).1 = .ok () ∧ (q.before now m).2.ttl = q.ttl ∧
        Remembers (q.before now m).2
          (accepted ++ (m.dedupKey.map fun key => (now, key)).toList) now) ∨
      (¬ FreshKey accepted q.ttl now m ∧ (q.before now m).2 = q ∧
        ∃ key, m.dedupKey = some key ∧ (q.before now m).1 = .error (.duplicate key)) := by
  unfold DeduplicationMiddleware.before
  cases hkey : m.dedupKey with
  | none =>
      refine .inl ⟨fun key hk => ?_, rfl, rfl, ?_⟩
      · rw [hkey] at hk
        cases hk
      · simpa using h.later hle
  | some key =>
      have hagrees := h.agrees now key hle
      by_cases hrecent : q.recent now key = true
      · simp only [hrecent, if_true]
        refine .inr ⟨fun hfresh => hfresh key hkey (hagrees.mp hrecent), ?_⟩
        exact ⟨trivial, key, rfl, rfl⟩
      · simp only [hrecent]
        refine .inl ⟨fun k hk => ?_, rfl, rfl, h.accept hle key⟩
        rw [hkey] at hk
        cases hk
        exact fun hwithin => hrecent (hagrees.mpr hwithin)

/-- One call: what the specification knows afterwards is what it knew before and the
message that was let through. -/
theorem call_remembers (h : Remembers q accepted clock) (c : Nat × DedupCall) (hle : clock ≤ c.1) :
    ∃ accepted', Remembers (q.call c).2 accepted' c.1 ∧ (q.call c).2.ttl = q.ttl ∧
      ∀ now key, accepted'.Within q.ttl now key ↔ accepted.Within q.ttl now key ∨
        ∃ last, LetsThrough [c] [(q.call c).1] 0 last key ∧ now - last < q.ttl := by
  obtain ⟨t, call⟩ := c
  cases call with
  | cleanup =>
      refine ⟨accepted, h.cleanup hle, rfl, fun now key => ?_⟩
      refine ⟨.inl, fun hor => hor.resolve_right ?_⟩
      rintro ⟨last, ⟨m, hm, -, -⟩, -⟩
      cases hm
  | before m =>
      rcases before_cases h hle m with ⟨-, hok, httl, hremembers⟩ | ⟨-, hsame, key', -, herror⟩
      · refine ⟨_, hremembers, httl, fun now key => ⟨?_, ?_⟩⟩
        · rintro ⟨last, hmem, hlt⟩
          rcases List.mem_append.mp hmem with hmem | hmem
          · exact .inl ⟨last, hmem, hlt⟩
          · obtain ⟨key', hkey', heq⟩ := Option.map_eq_some_iff.mp (Option.mem_toList.mp hmem)
            cases heq
            refine .inr ⟨t, ⟨m, rfl, hkey', ?_⟩, hlt⟩
            show some (some (q.before t m).1) = _
            rw [hok]
        · rintro (⟨last, hmem, hlt⟩ | ⟨last, ⟨m', hm', hkey, -⟩, hlt⟩)
          · exact ⟨last, List.mem_append_left _ hmem, hlt⟩
          · cases hm'
            refine ⟨t, List.mem_append_right _ ?_, hlt⟩
            rw [hkey]
            exact List.mem_cons_self
      · refine ⟨accepted, ?_, ?_, fun now key => ⟨.inl, fun hor => hor.resolve_right ?_⟩⟩
        · show Remembers (q.before t m).2 accepted t
          rw [hsame]
          exact h.later hle
        · show (q.before t m).2.ttl = q.ttl
          rw [hsame]
        · rintro ⟨last, ⟨m', -, -, hanswer⟩, -⟩
          have hanswer' : some (some (q.before t m).1) = some (some (.ok ())) := hanswer
          rw [herror] at hanswer'
          cases hanswer'

/-- A decision in a history: by what had been let through before it, and in it. -/
theorem answers_iff (h : Remembers q accepted clock) (hclock : ∀ c ∈ history, clock ≤ c.1)
    (hinc : history.InOrder) {i : Nat} {m : TaskMessage}
    (hi : history[i]? = some (now, .before m)) :
    (q.answers history)[i]? = some (some (.ok ())) ↔
      ∀ key, m.dedupKey = some key → ¬ (accepted.Within q.ttl now key ∨
        ∃ j last, j < i ∧ LetsThrough history (q.answers history) j last key ∧
          now - last < q.ttl) := by
  induction history generalizing q accepted clock i with
  | nil => cases hi
  | cons c rest ih =>
      have hle := hclock c List.mem_cons_self
      cases i with
      | zero =>
          cases hi
          show some (some (q.before now m).1) = _ ↔ _
          rcases before_cases h hle m with ⟨hfresh, hok, -, -⟩ | ⟨hstale, -, key, -, herror⟩
          · rw [hok]
            refine ⟨fun _ key hkey hor => hfresh key hkey (hor.resolve_right ?_), fun _ => rfl⟩
            rintro ⟨j, last, hj, -⟩
            exact absurd hj (Nat.not_lt_zero j)
          · rw [herror]
            refine ⟨fun heq => (nomatch heq), fun hall => absurd ?_ hstale⟩
            exact fun key hkey hwithin => hall key hkey (.inl hwithin)
      | succ i =>
          obtain ⟨hfirst, hinc'⟩ := List.pairwise_cons.mp hinc
          obtain ⟨accepted', hremembers, httl, hwithin⟩ := call_remembers h c hle
          have hrest := ih hremembers hfirst hinc' hi
          rw [httl] at hrest
          show ((q.call c).2.answers rest)[i]? = _ ↔ _
          rw [hrest]
          refine forall_congr' fun key => forall_congr' fun _ => not_congr ?_
          rw [hwithin now key, or_assoc]
          refine or_congr_right ⟨?_, ?_⟩
          · rintro (⟨last, ⟨m', hm', hkey, hanswer⟩, hlt⟩ | ⟨j, last, hj, hlets, hlt⟩)
            · exact ⟨0, last, Nat.succ_pos i, ⟨m', hm', hkey, hanswer⟩, hlt⟩
            · exact ⟨j + 1, last, Nat.succ_lt_succ hj, hlets, hlt⟩
          · rintro ⟨j, last, hj, hlets, hlt⟩
            cases j with
            | zero => exact .inl ⟨last, hlets, hlt⟩
            | succ j => exact .inr ⟨j, last, Nat.lt_of_succ_lt_succ hj, hlets, hlt⟩

/-- Two middlewares that remember the same decide the same, whenever they are cleaned
up. -/
theorem answers_filter {q' : DeduplicationMiddleware} {clock' : Nat}
    (h : Remembers q accepted clock) (h' : Remembers q' accepted clock') (httl : q'.ttl = q.ttl)
    (hclock : ∀ c ∈ history, clock ≤ c.1) (hclock' : ∀ c ∈ history, clock' ≤ c.1)
    (hinc : history.InOrder) :
    (q.answers history).reduceOption
      = (q'.answers (history.filter fun c => c.2.decides)).reduceOption := by
  induction history generalizing q q' accepted clock clock' with
  | nil => rfl
  | cons c rest ih =>
      obtain ⟨t, call⟩ := c
      obtain ⟨hfirst, hinc'⟩ := List.pairwise_cons.mp hinc
      have hle := hclock _ List.mem_cons_self
      have hle' := hclock' _ List.mem_cons_self
      cases call with
      | cleanup =>
          show ((q.cleanup t).answers rest).reduceOption = _
          exact ih (h.cleanup hle) h' httl hfirst
            (fun c hc => hclock' c (List.mem_cons_of_mem _ hc)) hinc'
      | before m =>
          show (some (q.before t m).1 :: (q.before t m).2.answers rest).reduceOption
            = (some (q'.before t m).1 :: (q'.before t m).2.answers _).reduceOption
          rw [List.reduceOption_cons_of_some, List.reduceOption_cons_of_some]
          rcases before_cases h hle m with ⟨hfresh, hok, hq, hnew⟩ | ⟨hstale, hsame, key, hkey, herror⟩
          · rcases before_cases h' hle' m with ⟨-, hok', hq', hnew'⟩ | ⟨hstale', -⟩
            · rw [hok, hok', ih hnew hnew' (by rw [hq, hq', httl]) hfirst hfirst hinc']
            · rw [httl] at hstale'
              exact absurd hfresh hstale'
          · rcases before_cases h' hle' m with ⟨hfresh', -⟩ | ⟨-, hsame', key', hkey', herror'⟩
            · rw [httl] at hfresh'
              exact absurd hfresh' hstale
            · rw [hkey] at hkey'
              cases hkey'
              rw [herror, herror', hsame, hsame', ih (h.later hle) (h'.later hle') httl hfirst
                hfirst hinc']

end Histories

/-- The middleware lets a message through exactly if none of its key was let through
less than a TTL ago, and cleanups change no decision. -/
theorem dedup_window (ttl : Nat) {history : DedupHistory} (hinc : history.InOrder) :
    (∀ (i now : Nat) (m : TaskMessage), history[i]? = some (now, .before m) →
      (((DeduplicationMiddleware.new ttl).answers history)[i]? = some (some (.ok ())) ↔
        ∀ key, m.dedupKey = some key →
          ¬ ∃ j last, j < i ∧
            LetsThrough history ((DeduplicationMiddleware.new ttl).answers history) j last key ∧
            now - last < ttl)) ∧
      ∀ history' : DedupHistory, history'.InOrder →
        (history'.filter fun c => c.2.decides) = (history.filter fun c => c.2.decides) →
        ((DeduplicationMiddleware.new ttl).answers history').reduceOption
          = ((DeduplicationMiddleware.new ttl).answers history).reduceOption := by
  have hstart := remembers_new ttl
  refine ⟨fun i now m hi => ?_, fun history' hinc' hsame => ?_⟩
  · rw [answers_iff hstart (fun c _ => Nat.zero_le _) hinc hi]
    refine forall_congr' fun key => forall_congr' fun _ => not_congr (or_iff_right ?_)
    rintro ⟨last, hmem, -⟩
    cases hmem
  · rw [answers_filter hstart hstart rfl (fun c _ => Nat.zero_le _) (fun c _ => Nat.zero_le _) hinc',
      answers_filter hstart hstart rfl (fun c _ => Nat.zero_le _) (fun c _ => Nat.zero_le _) hinc,
      hsame]

/-- A message with a key, sent three times, with a cleanup before the third. -/
def expiringKey : DedupHistory :=
  let m : TaskMessage := { plainMessage ⟨7⟩ with dedupKey := some "k" }
  [(0, .before m), (9, .before m), (10, .cleanup), (10, .before m)]

/-- The key is let through, refused, and let through again after a TTL. -/
theorem dedup_window_expiry :
    (DeduplicationMiddleware.new 10).answers expiringKey
        = [some (.ok ()), some (.error (.duplicate "k")), none, some (.ok ())] ∧
      ∀ history' : DedupHistory, history'.InOrder →
        (history'.filter fun c => c.2.decides) = (expiringKey.filter fun c => c.2.decides) →
        ((DeduplicationMiddleware.new 10).answers history').reduceOption
          = ((DeduplicationMiddleware.new 10).answers expiringKey).reduceOption := by
  have hinc : expiringKey.InOrder := by
    simp [DedupHistory.InOrder, expiringKey]
  exact ⟨rfl, (dedup_window 10 hinc).2⟩

end Kojin.Core
