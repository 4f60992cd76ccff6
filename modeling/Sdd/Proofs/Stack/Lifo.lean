import Sdd.Lib.Linearize
import Sdd.Stack

/-!
# `Sdd.Proofs.Stack.Lifo`: a sequential stack and effects in its past

`Lifo.Step` is a sequential stack: `push_if` compares with the first entry, and `pop_if`,
`peek` and `is_empty` read it.

A concurrent stack deletes an entry that is not the first one any more, because others have
attached entries in the mean time. In the sequential stack it was the first one just before
the push of the entry above it, and this is where the operation takes effect (`takes`). What
happens later leaves the entry above in the stack and does not see what is below: the part of
the stack below an entry that stays can be exchanged (`rebase`). `since z L` are the events of
`L` from the push of `z` on; the thread whose operation is moved to the past must have no
events among them.
-/

set_option autoImplicit false

namespace Sdd.Proofs.Stack

open Sdd.Lib.Linearize Sdd.Stack

variable {T : Type} {n : Nat}

/-- A sequential stack: all the entries pushed, and those in it with their instances, the
newest first. -/
structure Lifo (T : Type) where
  pushed : List Addr
  stack : List (Addr × T)

namespace Lifo

inductive Step (q : Lifo T) : Op T → Res → Lifo T → Prop where
  | push (val : T) (cond : Option T → Bool) (e : Addr) (he : e ∉ q.pushed)
      (h : cond (q.stack.head?.map Prod.snd) = true) :
      Step q (.pushIf val cond) (.pushed e) ⟨e :: q.pushed, (e, val) :: q.stack⟩
  | reject (val : T) (cond : Option T → Bool)
      (h : cond (q.stack.head?.map Prod.snd) = false) :
      Step q (.pushIf val cond) .rejected q
  | empty (cond : T → Bool) (h : q.stack = []) : Step q (.popIf cond) (.popped none) q
  | pop (cond : T → Bool) (e : Addr) (x : T) (rest : List (Addr × T))
      (hq : q.stack = (e, x) :: rest) (h : cond x = true) :
      Step q (.popIf cond) (.popped (some e)) ⟨q.pushed, rest⟩
  | refuse (cond : T → Bool) (e : Addr) (x : T) (hq : q.stack.head? = some (e, x))
      (h : cond x = false) : Step q (.popIf cond) (.refused e) q
  | peek : Step q .peek (.peeked (q.stack.head?.map Prod.fst)) q
  | isEmpty : Step q .isEmpty (.empty q.stack.head?.isNone) q

/-- The event is the effect of the push of `z`. -/
def pushes (z : Addr) : Event (Fin n) (Op T) Res → Bool
  | .effect _ _ (.pushed e) => e == z
  | _ => false

/-- The events from the push of `z` on. -/
def since (z : Addr) (L : List (Event (Fin n) (Op T) Res)) : List (Event (Fin n) (Op T) Res) :=
  L.dropWhile fun e => !pushes z e

/-- The entries that the pops of a run have returned, in this order. -/
def popped (L : List (Event (Fin n) (Op T) Res)) : List Addr :=
  L.filterMap fun
    | .effect _ _ (.popped e) => e
    | _ => none

variable {q q' : Lifo T} {op : Op T} {res : Res} {z : Addr} {v : T}
  {a r b : List (Addr × T)} {L L₁ L₂ : List (Event (Fin n) (Op T) Res)}
  {c c' : Config (Fin n) (Op T) Res (Lifo T)}

/-- No entry is forgotten. -/
theorem Step.pushed_mono (h : Step q op res q') (hz : z ∈ q.pushed) : z ∈ q'.pushed := by
  cases h with
  | push val cond e he hcond => exact List.mem_cons_of_mem e hz
  | _ => exact hz

theorem pushed_mono (h : Trace Step c L c') (hz : z ∈ c.state.pushed) : z ∈ c'.state.pushed := by
  induction h with
  | nil => exact hz
  | snoc e _ hm ih =>
    cases hm with
    | invoke t op ht => exact ih
    | result t op res ht => exact ih
    | effect t op res s ht hs => exact hs.pushed_mono ih

/-- A run pushes what its effects say. -/
theorem pushed_of_pushes (h : Trace Step c L c') {e : Event (Fin n) (Op T) Res} (he : e ∈ L)
    (hz : pushes z e = true) : z ∈ c'.state.pushed := by
  induction h with
  | nil => cases he
  | snoc f _ hm ih =>
    rcases List.mem_append.mp he with he | he
    · have hold := ih he
      cases hm with
      | invoke t op ht => exact hold
      | result t op res ht => exact hold
      | effect t op res s ht hs => exact hs.pushed_mono hold
    · rw [List.mem_singleton.mp he] at hz
      cases hm with
      | invoke t op ht => cases hz
      | result t op res ht => cases hz
      | effect t op res s ht hs =>
        cases hs with
        | push val cond e' he' hcond =>
          have hez : e' = z := by simpa [pushes] using hz
          exact hez ▸ List.mem_cons_self
        | _ => cases hz

section frame

/-- The first entry is above the part of the stack that is exchanged. -/
theorem head?_frame (x : Addr × T) : (a ++ x :: r).head? = (a ++ x :: b).head? := by
  cases a with
  | nil => rfl
  | cons y a => rfl

/-- A step that leaves an entry in the stack does not see what is below it. -/
theorem Step.rebase (h : Step q op res q') (hz : z ∈ q.pushed)
    (hs : q'.stack = a ++ (z, v) :: r) :
    ∃ a₀, q.stack = a₀ ++ (z, v) :: r ∧
      Step ⟨q.pushed, a₀ ++ (z, v) :: b⟩ op res ⟨q'.pushed, a ++ (z, v) :: b⟩ := by
  cases h with
  | push val cond e he hcond =>
    cases a with
    | nil =>
      -- The entry was pushed before.
      have hez : (e, val) = (z, v) := (List.cons.inj hs).1
      rw [(Prod.mk.inj hez).1] at he
      exact absurd hz he
    | cons y a =>
      have hy : (e, val) = y := (List.cons.inj hs).1
      have hstack : q.stack = a ++ (z, v) :: r := (List.cons.inj hs).2
      refine ⟨a, hstack, ?_⟩
      rw [hstack, head?_frame (b := b)] at hcond
      rw [← hy]
      exact .push val cond e he hcond
  | reject val cond hcond =>
    refine ⟨a, hs, .reject val cond ?_⟩
    rw [hs, head?_frame (b := b)] at hcond
    exact hcond
  | empty cond hnil =>
    rw [hnil] at hs
    simp at hs
  | pop cond e x rest hq hcond =>
    have hrest : rest = a ++ (z, v) :: r := hs
    refine ⟨(e, x) :: a, ?_, .pop cond e x _ rfl hcond⟩
    rw [hq, hrest, List.cons_append]
  | refuse cond e x hq hcond =>
    refine ⟨a, hs, .refuse cond e x ?_ hcond⟩
    rw [hs, head?_frame (b := b)] at hq
    exact hq
  | peek =>
    refine ⟨a, hs, ?_⟩
    rw [hs, head?_frame (b := b)]
    exact .peek
  | isEmpty =>
    refine ⟨a, hs, ?_⟩
    rw [hs, head?_frame (b := b)]
    exact .isEmpty

/-- A run that leaves an entry in the stack does not see what is below it. -/
theorem rebase (h : Trace Step c L c') (hz : z ∈ c.state.pushed)
    (hs : c'.state.stack = a ++ (z, v) :: r) :
    ∃ a₀, c.state.stack = a₀ ++ (z, v) :: r ∧
      Trace Step ⟨c.status, ⟨c.state.pushed, a₀ ++ (z, v) :: b⟩⟩ L
        ⟨c'.status, ⟨c'.state.pushed, a ++ (z, v) :: b⟩⟩ := by
  induction h generalizing a with
  | nil => exact ⟨a, hs, .nil⟩
  | snoc e h hm ih =>
    cases hm with
    | invoke t op ht =>
      obtain ⟨a₀, hstack, htrace⟩ := ih hs
      exact ⟨a₀, hstack, .snoc _ htrace (.invoke t op ht)⟩
    | result t op res ht =>
      obtain ⟨a₀, hstack, htrace⟩ := ih hs
      exact ⟨a₀, hstack, .snoc _ htrace (.result t op res ht)⟩
    | effect t op res s ht hstep =>
      obtain ⟨a₁, hstack₁, hstep'⟩ := hstep.rebase (b := b) (pushed_mono h hz) hs
      obtain ⟨a₀, hstack, htrace⟩ := ih hstack₁
      exact ⟨a₀, hstack, .snoc _ htrace (.effect t op res _ ht hstep')⟩

end frame

section past

variable {t : Fin n} {x : Addr} {y : T}

/-- A run to `c` has pushed `z`, with `r` below it. -/
inductive Pushed (c : Config (Fin n) (Op T) Res (Lifo T)) (z : Addr) (v : T)
    (r : List (Addr × T)) : List (Event (Fin n) (Op T) Res) → Prop where
  | intro (L₁ L₂ : List (Event (Fin n) (Op T) Res)) (u : Fin n) (cond : Option T → Bool)
      (c₁ : Config (Fin n) (Op T) Res (Lifo T)) (h : Trace Step (.start ⟨[], []⟩) L₁ c₁)
      (hu : c₁.status u = .pending (.pushIf v cond)) (hz : z ∉ c₁.state.pushed)
      (hcond : cond (r.head?.map Prod.snd) = true) (hs : c₁.state.stack = r)
      (hrest : Trace Step
        ⟨Function.update c₁.status u (.decided (.pushIf v cond) (.pushed z)),
          ⟨z :: c₁.state.pushed, (z, v) :: r⟩⟩ L₂ c) :
      Pushed c z v r (L₁ ++ .effect u (.pushIf v cond) (.pushed z) :: L₂)

/-- One more event. -/
theorem Pushed.snoc (p : Pushed c z v r L) {e : Event (Fin n) (Op T) Res} (hm : Lib.Linearize.Move Step c e c') :
    Pushed c' z v r (L ++ [e]) := by
  obtain ⟨L₁, L₂, u, cond, c₁, h, hu, hz, hcond, hs, hrest⟩ := p
  rw [List.append_assoc, List.cons_append]
  exact ⟨L₁, L₂ ++ [e], u, cond, c₁, h, hu, hz, hcond, hs, .snoc e hrest hm⟩

/-- An entry that is in the stack was pushed, and what was below it then is below it now. -/
theorem find (h : Trace Step (.start ⟨[], []⟩) L c) (hs : c.state.stack = a ++ (z, v) :: r) :
    Pushed c z v r L := by
  induction h generalizing a with
  | nil =>
    have hnil : [] = a ++ (z, v) :: r := hs
    simp at hnil
  | snoc e h hm ih =>
    cases hm with
    | invoke t op ht => exact (ih hs).snoc (.invoke t op ht)
    | result t op res ht => exact (ih hs).snoc (.result t op res ht)
    | effect t op res q ht hstep =>
      have hmove := Lib.Linearize.Move.effect t op res q ht hstep
      cases hstep with
      | push val cond e he hcond =>
        cases a with
        | nil =>
          obtain ⟨hez, hr⟩ := List.cons.inj hs
          cases hez
          subst hr
          exact ⟨_, [], t, cond, _, h, ht, he, hcond, rfl, .nil⟩
        | cons y a => exact (ih (List.cons.inj hs).2).snoc hmove
      | pop cond e x rest hq hcond =>
        have hrest : rest = a ++ (z, v) :: r := hs
        rw [hrest] at hq
        have hold : Pushed _ z v r _ := ih (a := (e, x) :: a) hq
        exact hold.snoc hmove
      | _ => exact (ih hs).snoc hmove

theorem pushes_self (u : Fin n) (op : Op T) : pushes z (.effect u op (.pushed z)) = true :=
  beq_self_eq_true z

/-- A run without the entry does not push it. -/
theorem not_pushes (h : Trace Step (.start ⟨[], []⟩) L c) (hz : z ∉ c.state.pushed) :
    ∀ e ∈ L, (!pushes z e) = true := by
  intro e he
  rw [Bool.not_eq_true']
  by_contra hpush
  rw [Bool.not_eq_false] at hpush
  exact hz (pushed_of_pushes h he hpush)

/-- The events since the push of an entry. -/
theorem since_eq {e : Event (Fin n) (Op T) Res} (h : Trace Step (.start ⟨[], []⟩) L₁ c)
    (hz : z ∉ c.state.pushed) (he : pushes z e = true) : since z (L₁ ++ e :: L₂) = e :: L₂ := by
  unfold since
  rw [List.dropWhile_append_of_pos (not_pushes h hz), List.dropWhile_cons_of_neg]
  rw [he]
  decide

/-- There are none when the entry was not pushed. -/
theorem since_eq_nil (h : Trace Step (.start ⟨[], []⟩) L c) (hz : z ∉ c.state.pushed) :
    since z L = [] := by
  unfold since
  rw [← List.append_nil L, List.dropWhile_append_of_pos (not_pushes h hz), List.dropWhile_nil]

/-- An operation that has not taken effect does so when the entry `x` was the first one,
before the push of the entry above it. -/
theorem takes {above : List (Addr × T)} (below : List (Addr × T))
    (h : Trace Step (.start ⟨[], []⟩) L c)
    (hs : c.state.stack = above ++ (x, y) :: r) (ht : c.status t = .pending op)
    (hafter : ∀ z v, (z, v) ∈ above → ∀ e ∈ since z L, e.thread ≠ t)
    (hstep : ∀ p, Step ⟨p, (x, y) :: r⟩ op res ⟨p, below⟩)
    (hcond : ∀ z v u val cond, above.getLast? = some (z, v) →
      .effect u (.pushIf val cond) (.pushed z) ∈ L → cond (some y) = true →
      cond (below.head?.map Prod.snd) = true) :
    ∃ L₁ L₂, L = L₁ ++ L₂ ∧
      Trace Step (.start ⟨[], []⟩) (L₁ ++ .effect t op res :: L₂)
        ⟨Function.update c.status t (.decided op res), ⟨c.state.pushed, above ++ below⟩⟩ := by
  rcases List.eq_nil_or_concat above with rfl | ⟨a, ⟨z, v⟩, rfl⟩
  · refine ⟨L, [], (List.append_nil L).symm, .snoc _ h (.effect t op res _ ht ?_)⟩
    have hstack : c.state.stack = (x, y) :: r := hs
    have hstate : c.state = ⟨c.state.pushed, (x, y) :: r⟩ := by
      rw [← hstack]
    rw [hstate]
    exact hstep _
  · rw [List.concat_eq_append, List.append_assoc, List.singleton_append] at hs
    rw [List.concat_eq_append] at hafter hcond ⊢
    obtain ⟨L₁, L₂, u, cond, c₁, h₁, hu, hz, hmet, hstack, hrest⟩ := find h hs
    -- The thread has no events since the push of `z`.
    have hnone := hafter z v (by simp)
    rw [since_eq h₁ hz (pushes_self u _)] at hnone
    have hne : u ≠ t := hnone _ List.mem_cons_self
    have hlater : ∀ e ∈ L₂, e.thread ≠ t := fun e he => hnone e (List.mem_cons_of_mem _ he)
    have hpending : c₁.status t = .pending op := by
      rw [← ht, hrest.status_eq hlater]
      exact (Function.update_of_ne hne.symm _ _).symm
    have hmet' : cond (below.head?.map Prod.snd) = true := by
      refine hcond z v u v cond (by simp) ?_ hmet
      exact List.mem_append_right _ List.mem_cons_self
    refine ⟨L₁, .effect u (.pushIf v cond) (.pushed z) :: L₂, rfl, ?_⟩
    -- The operation and the push, and then what followed on the other stack.
    have hfirst : Trace Step (.start ⟨[], []⟩) (L₁ ++ [.effect t op res])
        ⟨Function.update c₁.status t (.decided op res), ⟨c₁.state.pushed, below⟩⟩ := by
      refine .snoc _ h₁ (.effect t op res _ hpending ?_)
      have hstate : c₁.state = ⟨c₁.state.pushed, (x, y) :: r⟩ := by
        rw [← hstack]
      rw [hstate]
      exact hstep _
    have hmove : Lib.Linearize.Move Step
        ⟨Function.update c₁.status t (.decided op res), ⟨c₁.state.pushed, below⟩⟩
        (.effect u (.pushIf v cond) (.pushed z))
        ⟨Function.update (Function.update c₁.status t (.decided op res)) u
          (.decided (.pushIf v cond) (.pushed z)),
          ⟨z :: c₁.state.pushed, (z, v) :: below⟩⟩ :=
      .effect u _ _ _ ((Function.update_of_ne hne _ _).trans hu) (.push v cond z hz hmet')
    have hpush := Trace.snoc _ hfirst hmove
    obtain ⟨a₀, hframe, hrest'⟩ := rebase (b := below) hrest List.mem_cons_self hs
    have ha₀ : a₀ = [] := by
      have hlen := congrArg List.length hframe
      simp only [List.length_cons, List.length_append] at hlen
      exact List.length_eq_zero_iff.mp (by omega)
    subst ha₀
    have hlast := hrest'.update_status hlater (.decided op res)
    rw [Function.update_comm hne.symm] at hpush
    have hall := hpush.append hlast
    rw [List.append_assoc, List.append_assoc] at hall
    rw [List.append_assoc]
    exact hall

/-- An event that is inserted in a run is the only new one since a push. -/
theorem mem_since_insert {e f : Event (Fin n) (Op T) Res} (hf : pushes z f = false)
    (he : e ∈ since z (L₁ ++ f :: L₂)) : e ∈ since z (L₁ ++ L₂) ∨ e = f := by
  unfold since at he ⊢
  have hdrop : (!pushes z f) = true := by
    rw [hf]
    rfl
  rw [List.dropWhile_append,
    List.dropWhile_cons_of_pos (p := fun e => !pushes z e) hdrop] at he
  rw [List.dropWhile_append]
  by_cases hnil : (List.dropWhile (fun e => !pushes z e) L₁).isEmpty = true
  · rw [if_pos hnil] at he ⊢
    exact .inl he
  · rw [if_neg hnil] at he ⊢
    rcases List.mem_append.mp he with he | he
    · exact .inl (List.mem_append_left _ he)
    · rcases List.mem_cons.mp he with rfl | he
      · exact .inr rfl
      · exact .inl (List.mem_append_right _ he)

/-- A new event is the only new one since a push. -/
theorem mem_since_snoc {e f : Event (Fin n) (Op T) Res} (he : e ∈ since z (L ++ [f])) :
    e ∈ since z L ∨ e = f := by
  unfold since at he ⊢
  rw [List.dropWhile_append] at he
  split at he
  · exact .inr (List.mem_singleton.mp (List.dropWhile_sublist _ |>.mem he))
  · rcases List.mem_append.mp he with he | he
    · exact .inl he
    · exact .inr (List.mem_singleton.mp he)

/-- The pops of a sequential stack return entries that were pushed, each one once, and the
other entries are in the stack. -/
theorem popped_perm (h : Trace Step (.start ⟨[], []⟩) L c) :
    (popped L ++ c.state.stack.map Prod.fst).Perm c.state.pushed := by
  induction h with
  | nil => exact .refl _
  | @snoc L c₁ c₂ e h hm ih =>
    unfold popped at ih ⊢
    rw [List.filterMap_append]
    cases hm with
    | invoke t op ht => simpa using ih
    | result t op res ht => simpa using ih
    | effect t op res s ht hs =>
      cases hs with
      | push val cond e he hcond =>
        simp only [List.filterMap_cons_none, List.filterMap_nil, List.append_nil, List.map_cons]
        exact List.perm_middle.trans (ih.cons e)
      | pop cond e x rest hq hcond =>
        rw [hq] at ih
        simpa using ih
      | _ => simpa using ih

end past

end Lifo

end Sdd.Proofs.Stack
