import Sdd.Proofs.Alone
import Sdd.Proofs.Stacks.Family

/-!
# `Sdd.Proofs.Stacks.Alone`: a call on a stack without interference

What a call on the stack `i` of a family does when the other threads stand still. `newest`
refers to the entry that the call is at (`Solo`): no compare-and-exchange fails, and an
undeleted entry was not released. `soloRounds` bounds the accesses that are left. The call cleans
up at most once before the entry that it is for, and `pop_if` once more after a deletion.
`stackCall_ends` puts this together for a program that makes such a call.
-/

set_option autoImplicit false

namespace Sdd.Proofs.Stacks

open Sdd.Lib
open Sdd.Stack (Call Clean Mem Op Push Res)
open Sdd.Stacks (Family)
open Sdd.Proofs.Stack (Stacks CallInv callInv_start cleanNext_outcome step_steps)

variable {T ι : Type} {m : Mem T} {tgt : Addr → Option Addr} {k : Clean T} {p : Push T}
  {o : Option Addr}

/-- A call that runs alone: the word refers to the entry that it is at. -/
def Solo (m : Mem T) (tgt : Addr → Option Addr) : Call T → Prop
  | .loadNewest _ => True
  | .cleanDeleted _ x => m.newest = some x
  | .cleanNext _ x call => m.newest = some x ∧ SharedAlone m.heap tgt x call
  | .cleanExchange _ x next => m.newest = some x ∧ ∀ y, next = some y → m.heap.isDeleted y = false
  | .swapLink _ _ newest | .attach _ _ newest => m.newest = newest
  | .popGetShared _ x | .popDeleted _ x | .popDelete _ x =>
    m.newest = some x ∧ m.heap.isDeleted x = false

/-- A bound of the accesses of one clean-up of a link. -/
def cleanRounds (m : Mem T) : Nat := 2 * m.attached.length + 133

/-- A bound of the accesses after a clean-up. -/
def base (m : Mem T) : Clean T → Nat
  | .push _ => 2
  | .popIf _ => cleanRounds m + 6
  | .popped _ _ | .peek | .isEmpty => 0

/-- A bound of the accesses that are left. -/
def soloRounds (m : Mem T) : Call T → Nat
  | .loadNewest k => base m k + cleanRounds m + 4
  | .cleanDeleted k x => base m k + if m.heap.isDeleted x then cleanRounds m + 3 else 1
  | .cleanNext k _ call => base m k + 3 + sharedRounds m.attached call
  | .cleanExchange k _ _ => base m k + 2
  | .swapLink _ _ _ => 2
  | .attach _ _ _ => 1
  | .popGetShared _ _ => cleanRounds m + 6
  | .popDeleted _ _ => cleanRounds m + 5
  | .popDelete _ _ => cleanRounds m + 4

/-- The call has deleted an entry. -/
def Clean.spent : Clean T → Bool
  | .popped _ _ => true
  | _ => false

/-- The call has used up its turn of the loop. -/
def spent : Call T → Bool
  | .loadNewest k | .cleanDeleted k _ | .cleanNext k _ _ | .cleanExchange k _ _ => Clean.spent k
  | _ => false

/-- The next access deletes an entry, if no other thread has done so. -/
def deletes : Call T → Bool
  | .popDelete _ _ => true
  | _ => false

/-- What a call that runs alone says of `newest` when it returns. -/
def Looked (m : Mem T) : Res → Prop
  | .peeked o => m.newest = o ∧ ∀ x, o = some x → m.heap.isDeleted x = false
  | .empty b => m.newest.isNone = b ∧ ∀ x, m.newest = some x → m.heap.isDeleted x = false
  | _ => True

/-- How far a call that runs alone has come after an access: it has at most `bound` accesses
left. If it has popped an entry, it has deleted one before (`was`). -/
structure SoloAfter (was : Bool) (bound : Nat) (r : Mem T × Outcome (Call T) Res) : Prop where
  running : ∀ c, r.2 = .running c → (∀ tgt, Solo r.1 tgt c) ∧ soloRounds r.1 c ≤ bound ∧
    (spent c = true → was = true)
  popped : ∀ x, r.2 = .done (.popped (some x)) → was = true
  looked : ∀ res, r.2 = .done res → Looked r.1 res

/-- The call has returned. -/
theorem SoloAfter.done {was : Bool} {bound : Nat} {res : Res}
    (hres : ∀ x, res = .popped (some x) → was = true) (hlook : Looked m res) :
    SoloAfter was bound (m, .done res) where
  running c hc := by cases hc
  popped x hx := hres x (Outcome.done.inj hx)
  looked res' hres' := Outcome.done.inj hres' ▸ hlook

/-- The call goes on. -/
theorem SoloAfter.goes {was : Bool} {bound : Nat} {c : Call T} (hsolo : ∀ tgt, Solo m tgt c)
    (hle : soloRounds m c ≤ bound) (hspent : spent c = true → was = true) :
    SoloAfter was bound (m, .running c) where
  running c' hc' := by
    cases hc'
    exact ⟨hsolo, hle, hspent⟩
  popped x hx := by cases hx
  looked res hres := by cases hres

/-- A larger bound. -/
theorem SoloAfter.mono {was : Bool} {bound bound' : Nat} {r : Mem T × Outcome (Call T) Res}
    (h : SoloAfter was bound r) (hle : bound ≤ bound') : SoloAfter was bound' r where
  running c hc :=
    ⟨(h.running c hc).1, Nat.le_trans (h.running c hc).2.1 hle, (h.running c hc).2.2⟩
  popped := h.popped
  looked := h.looked

/-- Alone, a push whose expected entry is `newest` needs two more accesses at most. -/
theorem evaluate_solo (ho : m.newest = o) : SoloAfter false 2 (m.evaluate p o) := by
  unfold Mem.evaluate
  split
  · split
    · exact .goes (fun _ => ho) (Nat.le_refl _) nofun
    · exact .goes (fun _ => ho) (Nat.le_refl _) nofun
  · exact .done nofun trivial

/-- `cleanup_newest` has found an undeleted entry, or that the stack is empty. -/
theorem cleaned_solo (ho : m.newest = o) (hlive : ∀ x, o = some x → m.heap.isDeleted x = false) :
    SoloAfter (Clean.spent k) (base m k) (m.cleaned k o) := by
  unfold Mem.cleaned
  cases k with
  | push p => exact evaluate_solo ho
  | popIf cond =>
    cases o with
    | none => exact .done nofun trivial
    | some x => exact .goes (fun _ => ⟨ho, hlive x rfl⟩) (Nat.le_refl _) nofun
  | popped cond e => exact .done (fun _ _ => rfl) trivial
  | peek => exact .done nofun ⟨ho, hlive⟩
  | isEmpty => exact .done nofun ⟨by rw [ho], fun x hx => hlive x (ho.symm.trans hx)⟩

/-- A turn of `cleanup_newest` begins at the entry that `newest` refers to. -/
theorem cleanup_solo (ho : m.newest = o) :
    SoloAfter (Clean.spent k) (base m k + cleanRounds m + 3) (m.cleanup k o) := by
  cases o with
  | none =>
    refine (cleaned_solo ho fun x hx => by cases hx).mono ?_
    omega
  | some x =>
    refine .goes (fun _ => ho) ?_ fun hs => hs
    show base m k + (if m.heap.isDeleted x then cleanRounds m + 3 else 1) ≤ _
    split <;> omega

/-- The last turn begins at an undeleted entry. -/
theorem cleanup_live (ho : m.newest = o) (hlive : ∀ x, o = some x → m.heap.isDeleted x = false) :
    SoloAfter (Clean.spent k) (base m k + 1) (m.cleanup k o) := by
  cases o with
  | none => exact (cleaned_solo ho hlive).mono (Nat.le_succ _)
  | some x =>
    refine .goes (fun _ => ho) ?_ fun hs => hs
    show base m k + (if m.heap.isDeleted x then cleanRounds m + 3 else 1) ≤ _
    rw [hlive x rfl]
    exact Nat.le_refl _

/-- No entry is farther than the list is long. -/
theorem rank_le (order : List Addr) (x : Addr) : rank order x ≤ order.length := Nat.sub_le _ _

/-- An access that is not one of `next_shared`. -/
theorem step_solo {c : Call T} (hs : ∀ k x call, c ≠ .cleanNext k x call)
    (hsolo : Solo m tgt c) (hrel : ∀ x, m.newest = some x → m.heap.released x = false) :
    ∃ b, SoloAfter (spent c || deletes c) b (m.step c) ∧ b < soloRounds m c := by
  cases c with
  | loadNewest k =>
    refine ⟨_, ?_, Nat.lt_succ_self _⟩
    simp only [deletes, Bool.or_false]
    exact cleanup_solo rfl
  | cleanDeleted k x =>
    simp only [Mem.step, deletes, Bool.or_false]
    by_cases hdead : m.heap.isDeleted x = true
    · rw [if_pos hdead]
      refine ⟨base m k + 3 + sharedRounds m.attached (.start x),
        .goes (fun _ => ⟨hsolo, sharedAlone_start⟩) (Nat.le_refl _) fun hs => hs, ?_⟩
      · show base m k + 3 + (2 * rank m.attached x + 132) < base m k + ite _ _ _
        rw [if_pos hdead]
        have hle := rank_le m.attached x
        unfold cleanRounds
        omega
    · rw [if_neg hdead]
      have hlive := (Bool.not_eq_true _).mp hdead
      refine ⟨base m k, cleaned_solo hsolo fun y hy => ?_, ?_⟩
      · cases hy
        exact hlive
      · show base m k < base m k + ite _ _ _
        rw [if_neg hdead]
        omega
  | cleanNext k x call => exact absurd rfl (hs k x call)
  | cleanExchange k x next =>
    simp only [Mem.step, deletes, Bool.or_false, if_pos hsolo.1]
    exact ⟨_, cleanup_live (m := { m with newest := next }) rfl hsolo.2, Nat.lt_succ_self _⟩
  | swapLink p e newest =>
    exact ⟨1, .goes (fun _ => hsolo) (Nat.le_refl _) (fun h => by cases h), Nat.lt_succ_self _⟩
  | attach p e newest =>
    simp only [Mem.step]
    have hnewest : m.newest = newest := hsolo
    rw [if_pos hnewest]
    exact ⟨0, .done (by simp) trivial, Nat.lt_succ_self _⟩
  | popGetShared cond x =>
    simp only [Mem.step]
    -- `newest` owns the entry.
    rw [hrel x hsolo.1]
    exact ⟨cleanRounds m + 5, .goes (fun _ => hsolo) (Nat.le_refl _) (fun h => by cases h), Nat.lt_succ_self _⟩
  | popDeleted cond x =>
    simp only [Mem.step]
    split
    · exact ⟨0, .done (by simp) trivial, Nat.succ_pos _⟩
    · exact ⟨cleanRounds m + 4, .goes (fun _ => hsolo) (Nat.le_refl _) (fun h => by cases h), Nat.lt_succ_self _⟩
  | popDelete cond x =>
    simp only [Mem.step, deleteSelf_eq hsolo.2]
    refine ⟨cleanRounds m + 3, .goes (fun _ => hsolo.1) ?_ fun _ => rfl, Nat.lt_succ_self _⟩
    simp only [soloRounds, base, cleanRounds]
    split <;> omega

section contents

variable {m' : Mem T}

/-- The contents depend on the attached entries and on which of them are deleted. -/
theorem contents_congr (hatt : m'.attached = m.attached)
    (hdel : m'.heap.isDeleted = m.heap.isDeleted) : m'.contents = m.contents := by
  unfold Mem.contents
  rw [hatt, hdel]

/-- A walk to the next access deletes nothing. -/
theorem evaluate_contents : (m.evaluate p o).1.contents = m.contents := by
  unfold Mem.evaluate
  split
  · split <;> rfl
  · rfl

/-- The return from `cleanup_newest` changes no contents. -/
theorem cleaned_contents : (m.cleaned k o).1.contents = m.contents := by
  unfold Mem.cleaned
  cases k with
  | push p => exact evaluate_contents
  | popIf cond => cases o <;> rfl
  | popped cond e => rfl
  | peek => rfl
  | isEmpty => rfl

/-- Nor does a turn of its loop. -/
theorem cleanup_contents : (m.cleanup k o).1.contents = m.contents := by
  cases o with
  | none => exact cleaned_contents
  | some x => rfl

variable [DecidableEq ι] {owner : Addr → ι} {word : ι → Option Addr}

/-- An access that attaches no entry: the undeleted entries do not get more, and `delete_self`
takes one away. -/
theorem step_contents {c : Call T} (hs : Stacks m.heap m.attached owner word tgt)
    (hc : CallInv m.heap m.attached tgt c)
    (hheld : ∀ x, c.holds x = true → m.heap.released x = false)
    (hattach : ∀ p e o, c ≠ .attach p e o) :
    (m.step c).1.contents.length ≤ m.contents.length ∧
      ∀ cond x, c = .popDelete cond x → m.heap.isDeleted x = false →
        (m.step c).1.contents.length < m.contents.length := by
  have hsame : ∀ {l : List Addr}, l = m.contents → l.length ≤ m.contents.length :=
    fun h => Nat.le_of_eq (congrArg List.length h)
  cases c with
  | loadNewest k => exact ⟨hsame cleanup_contents, (by simp)⟩
  | cleanDeleted k x =>
    refine ⟨hsame ?_, (by simp)⟩
    simp only [Mem.step]
    split
    · rfl
    · exact cleaned_contents
  | cleanNext k x call =>
    refine ⟨hsame ?_, (by simp)⟩
    have hclean := nextShared_cleans hc.2.2.2 fun y hy => hheld y (by simp [Call.holds, hy])
    simp only [Mem.step]
    unfold Mem.cleanNext
    split
    · exact contents_congr rfl hclean.isDeleted_eq
    · exact contents_congr rfl hclean.isDeleted_eq
  | cleanExchange k x next =>
    refine ⟨hsame ?_, (by simp)⟩
    simp only [Mem.step]
    split
    · exact cleanup_contents
    · exact cleanup_contents
  | swapLink p e newest =>
    obtain ⟨hp, hentry, -⟩ := hc
    have hlive := hs.unattached e (hp e hentry).2.1
    exact ⟨hsame (contents_congr rfl (isDeleted_private hlive)), (by simp)⟩
  | attach p e o => exact absurd rfl (hattach p e o)
  | popGetShared cond x =>
    refine ⟨hsame ?_, (by simp)⟩
    simp only [Mem.step]
    split <;> rfl
  | popDeleted cond x =>
    refine ⟨hsame ?_, (by simp)⟩
    simp only [Mem.step]
    split <;> rfl
  | popDelete cond x =>
    cases hlive : m.heap.isDeleted x with
    | true =>
      simp only [Mem.step, deleteSelf_dead hlive]
      refine ⟨Nat.le_refl _, fun cond' y hy hl => ?_⟩
      cases hy
      rw [hlive] at hl
      cases hl
    | false =>
      have hmem : x ∈ m.contents := by
        simpa [Mem.contents, hlive] using (show x ∈ m.attached from hc)
      have herase : Mem.contents { m with heap := (m.heap.deleteSelf x).1 } = m.contents.erase x := by
        have hnodup : m.contents.Nodup := hs.nodup.filter _
        rw [hnodup.erase_eq_filter]
        unfold Mem.contents
        rw [isDeleted_deleteSelf hlive, List.filter_filter]
        refine List.filter_congr fun y _ => ?_
        by_cases hyx : y = x
        · subst hyx
          simp
        · simp [hyx]
      have hlt : (m.contents.erase x).length < m.contents.length := by
        rw [List.length_erase_of_mem hmem]
        exact Nat.sub_lt (List.length_pos_of_mem hmem) Nat.one_pos
      rw [← herase] at hlt
      have hdel := deleteSelf_eq hlive
      simp only [Mem.step, hdel]
      rw [hdel] at hlt
      exact ⟨Nat.le_of_lt hlt, fun _ _ _ _ => hlt⟩

end contents

section going

variable [DecidableEq ι] {f : Family T ι} {i : ι} {K : Nat} {c : Call T}

/-- A call on the stack `i` that runs alone. There were `K` undeleted entries when it began. -/
structure Going (i : ι) (K : Nat) (f : Family T ι) (c : Call T) : Prop where
  inv : ∃ owner tgt, Stacks f.heap f.attached owner f.newest tgt ∧
    CallInv f.heap f.attached tgt c ∧ Solo (f.mem i) tgt c
  held : ∀ x, c.holds x = true → f.heap.released x = false
  budget : (f.mem i).contents.length ≤ K ∧ (spent c = true → (f.mem i).contents.length < K)

/-- The stack that was written is the one that is read. -/
theorem mem_setMem (m : Mem T) : (f.setMem i m).mem i = m := by
  show Mem.mk (Function.update f.newest i m.newest i) m.heap m.attached m.cond = m
  rw [Function.update_self]

/-- The access of a call that runs alone. -/
theorem Going.step (h : Going i K f c) :
    (∀ c', ((f.mem i).step c).2 = .running c' →
      Going i K (f.setMem i ((f.mem i).step c).1) c' ∧
        soloRounds ((f.mem i).step c).1 c' < soloRounds (f.mem i) c) ∧
      ∀ res, ((f.mem i).step c).2 = .done res →
        (∀ x, res = .popped (some x) → ((f.mem i).step c).1.contents.length < K) ∧
          Looked ((f.mem i).step c).1 res := by
  obtain ⟨owner, tgt, hs, hc, hsolo⟩ := h.inv
  obtain ⟨owner', tgt', -, hmoved⟩ := step_steps (m := f.mem i) (i := i) hs rfl hc h.held
  have hrel : ∀ x, (f.mem i).newest = some x → (f.mem i).heap.released x = false :=
    fun x hx => (hs.roots i x hx).2
  by_cases hattach : ∃ p e o, c = .attach p e o
  · -- The call returns.
    obtain ⟨p, e, o, rfl⟩ := hattach
    have hnewest : (f.mem i).newest = o := hsolo
    simp only [Mem.step, if_pos hnewest]
    refine ⟨(by simp), fun res hres => ?_⟩
    cases hres
    exact ⟨(by simp), trivial⟩
  · have hattach' : ∀ p e o, c ≠ .attach p e o := fun p e o hc => hattach ⟨p, e, o, hc⟩
    obtain ⟨hle, hlt⟩ := step_contents (m := f.mem i) hs hc h.held hattach'
    by_cases hnext : ∃ k x call, c = .cleanNext k x call
    · obtain ⟨k, x, call, rfl⟩ := hnext
      obtain ⟨hnewest, halone⟩ := hsolo
      have hafter := nextShared_alone hs.heap hc.2.1 halone
        (fun y hy => h.held y (by simp [Call.holds, hy])) fun y ha hlive => by
          have hy := (ha.before hs.heap hc.2.1).2.1
          by_contra hr
          rw [Bool.not_eq_false] at hr
          rw [hs.dead_of_released hy hr] at hlive
          cases hlive
      obtain ⟨hclean, call', hstep, hcall', hheld', -⟩ := cleanNext_outcome (m := f.mem i) hs hc h.held
      -- Where the access leads the call.
      have hlead : Solo ⟨f.newest i, (call.step f.heap).1, f.attached, f.cond⟩ tgt call' ∧
          soloRounds ⟨f.newest i, (call.step f.heap).1, f.attached, f.cond⟩ call'
            < soloRounds (f.mem i) (.cleanNext k x call) ∧ spent call' = Clean.spent k := by
        simp only [Mem.step] at hstep
        cases hout : (call.step f.heap).2 with
        | running call'' =>
          rw [hout] at hafter
          simp only [Family.mem, hout] at hstep
          cases hstep
          exact ⟨⟨hnewest, hafter.1⟩, Nat.add_lt_add_left hafter.2 _, rfl⟩
        | done next =>
          rw [hout] at hafter
          simp only [Family.mem, hout] at hstep
          cases hstep
          refine ⟨⟨hnewest, fun y hy => (hafter.2.2 y hy).2⟩, ?_, rfl⟩
          show base (f.mem i) k + 2 < base (f.mem i) k + 3 + sharedRounds f.attached call
          omega
      obtain ⟨hsolo', hrounds, hspent⟩ := hlead
      rw [hstep] at hle ⊢
      refine ⟨fun c' hc' => ?_, (by simp)⟩
      cases hc'
      refine ⟨⟨⟨owner, tgt, ?_, hcall', ?_⟩, hheld', ?_⟩, hrounds⟩
      · show Stacks _ _ _ (Function.update f.newest i (f.newest i)) _
        rw [Function.update_eq_self]
        exact hs.clean hclean
      · rw [mem_setMem]
        exact hsolo'
      · rw [mem_setMem, hspent]
        exact ⟨Nat.le_trans hle h.budget.1, fun hsp => Nat.lt_of_le_of_lt hle (h.budget.2 hsp)⟩
    · have hnext' : ∀ k x call, c ≠ .cleanNext k x call := fun k x call hc => hnext ⟨k, x, call, hc⟩
      obtain ⟨b, hafter, hb⟩ := step_solo hnext' hsolo hrel
      -- An entry has been deleted now, or before.
      have hspent : (spent c || deletes c) = true →
          ((f.mem i).step c).1.contents.length < K := by
        intro hsp
        rcases Bool.or_eq_true_iff.mp hsp with hsp | hsp
        · exact Nat.lt_of_le_of_lt hle (h.budget.2 hsp)
        · cases c with
          | popDelete cond x => exact Nat.lt_of_lt_of_le (hlt cond x rfl hsolo.2) h.budget.1
          | _ => cases hsp
      refine ⟨fun c' hc' => ?_, fun res hres =>
        ⟨fun x hx => hspent (hafter.popped x (hx ▸ hres)), hafter.looked res hres⟩⟩
      obtain ⟨hsolo', hrounds, hsp⟩ := hafter.running c' hc'
      have hout := hmoved.outcome
      rw [hc'] at hout
      refine ⟨⟨⟨owner', tgt', hmoved.words, hout.1, ?_⟩, hout.2, ?_⟩, Nat.lt_of_le_of_lt hrounds hb⟩
      · rw [mem_setMem]
        exact hsolo' tgt'
      · rw [mem_setMem]
        exact ⟨Nat.le_trans hle h.budget.1, fun h => hspent (hsp h)⟩

/-- The release of an entry that the call does not hold. -/
theorem Going.release (h : Going i K f c) {x : Addr} (hlt : x < f.heap.nextAddr)
    (hun : f.heap.unlinked x = true) (hword : ∀ j, f.newest j ≠ some x) (hx : c.holds x = false) :
    Going i K { f with heap := f.heap.release x } c := by
  obtain ⟨owner, tgt, hs, hc, hsolo⟩ := h.inv
  refine ⟨⟨owner, tgt, hs.release hlt hun hword, hc.ext (ext_release x) fun _ _ => by simp, ?_⟩,
    fun y hy => ?_, h.budget⟩
  · cases c with
    | cleanNext k y call =>
      have hlink : (f.heap.release x).link = f.heap.link := rfl
      exact ⟨hsolo.1, SharedAlone.congr hlink hsolo.2⟩
    | _ => exact hsolo
  · have hyx : y ≠ x := by
      rintro rfl
      rw [hx] at hy
      cases hy
    show Function.update f.heap.released x true y = false
    rw [Function.update_of_ne hyx]
    exact h.held y hy

/-- The call begins. -/
theorem Going.start {owner : Addr → ι} {tgt : Addr → Option Addr}
    (hs : Stacks f.heap f.attached owner f.newest tgt) (op : Op T) :
    Going i (f.mem i).contents.length f (.start op) := by
  refine ⟨⟨owner, tgt, hs, callInv_start op, ?_⟩, fun x hx => ?_, Nat.le_refl _, fun hsp => ?_⟩
  · cases op <;> exact trivial
  · cases op <;> cases hx
  · cases op <;> cases hsp

variable {S : Type} {own : S → Option S} {env : S → S → Prop} {done : S → Prop} {s : S}

/-- A call of a method of the stack `i` returns, if the party makes its accesses one after the
other. When `pop` returns an entry, the undeleted entries have become fewer; what `peek` and
`is_empty` say is true of `newest`. -/
theorem stackCall_ends (family : S → Family T ι) (i : ι) (K : Nat) (At : S → Call T → Prop)
    (henv : ∀ s s' c, At s c → env s s' → At s' c ∧ ∃ x,
      family s' = { family s with heap := (family s).heap.release x } ∧
      x < (family s).heap.nextAddr ∧ (family s).heap.unlinked x = true ∧
      (∀ j, (family s).newest j ≠ some x) ∧ c.holds x = false)
    (hown : ∀ s c, At s c → ∃ s', own s = some s' ∧
      (∀ c', (((family s).mem i).step c).2 = .running c' →
        At s' c' ∧ family s' = (family s).setMem i (((family s).mem i).step c).1) ∧
      ∀ res, (((family s).mem i).step c).2 = .done res →
        (∀ x, res = .popped (some x) → (((family s).mem i).step c).1.contents.length < K) →
        Looked (((family s).mem i).step c).1 res → Ends own env done s')
    (hs : At s c) (hgoing : Going i K (family s) c) : Ends own env done s := by
  refine call_ends family
    (fun f c => (f.setMem i ((f.mem i).step c).1, ((f.mem i).step c).2)) At (Going i K)
    (fun f => soloRounds (f.mem i))
    (fun f res => (∀ x, res = .popped (some x) → (f.mem i).contents.length < K) ∧
      Looked (f.mem i) res)
    (fun s c _ hg => ?_) (fun s s' c hs he => ?_) (fun s c hs => ?_) hs hgoing
  · obtain ⟨hrun, hret⟩ := hg.step
    refine ⟨fun c' hc' => ?_, fun res hres => ?_⟩
    · rw [mem_setMem]
      exact hrun c' hc'
    · rw [mem_setMem]
      exact hret res hres
  · obtain ⟨hs', x, hf, hlt, hun, hword, hx⟩ := henv s s' c hs he
    refine ⟨hs', fun hg => ?_⟩
    rw [hf]
    exact ⟨hg.release hlt hun hword hx, rfl⟩
  · obtain ⟨s', hs', hrun, hdone⟩ := hown s c hs
    refine ⟨s', hs', hrun, fun res hres hret => ?_⟩
    rw [mem_setMem] at hret
    exact hdone res hres hret.1 hret.2

end going

end Sdd.Proofs.Stacks
