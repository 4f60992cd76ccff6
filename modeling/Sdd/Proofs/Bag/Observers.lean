import Sdd.Proofs.Bag.Conservation
import Sdd.Proofs.Bag.Returns
import Sdd.Proofs.Bag.Tidy

/-!
# `Sdd.Proofs.Bag.Observers`: the observers of a bag at rest

What `len`, `is_empty` and `pop` say of a bag when no call is in progress. No slot is owned then,
and the storage in each undeleted entry of the stack has an instance, so that the stack is empty
if and only if only the primary storage can have instances (`Rest`). The observers clean up links
and `newest`, which changes nothing of this (`Tidied`).
-/

set_option autoImplicit false

namespace Sdd.Proofs.Bag

open Sdd.Lib
open Sdd.Lib.Linearize (Event)
open Sdd.Bag (Mem Call Pc Op Res World LenCall EmptyCall)
open Sdd.Proofs.Stack (Stacks entries mem_entries)
open Sdd.Proofs.Stacks (Place FamilyInv Follows Answer Looked)

variable {bits n len : Nat} {T : Type} {s : Storage bits T} {m m₀ : Mem bits T n}

section storage

/-- A count is a sum. -/
theorem countP_range (p : Nat → Bool) (k : Nat) :
    (List.range k).countP p = ∑ i ∈ Finset.range k, if p i then 1 else 0 := by
  induction k with
  | zero => rfl
  | succ k ih =>
    rw [List.range_succ, List.countP_append, ih, Finset.sum_range_succ, List.countP_singleton]

/-- `Storage::len` of a storage that nobody uses. -/
theorem Unowned.len_eq (hlen : ArrayLen bits len) (h : Unowned len s) (hh : High len s.metadata) :
    s.len len = (contents len s).card := by
  have hsub : Finset.range len ⊆ Finset.range 32 := Finset.range_subset_range.mpr hlen.le_32
  have hbit : ∀ i ∈ Finset.range 32, (Storage.instanceBitmap len s.metadata &&&
      ~~~Storage.ownedBitmap len s.metadata).getLsbD i
        = (decide (i < len) && valid len s.metadata i) :=
    fun i hi => getLsbD_validBitmap hlen hh (Finset.mem_range.mp hi)
  unfold Storage.len Storage.countOnes contents
  rw [countP_range, Multiset.card_sum, ← Finset.sum_subset hsub fun i hi hout => ?_]
  · refine Finset.sum_congr rfl fun i hi => ?_
    rw [hbit i (hsub hi), decide_eq_true (Finset.mem_range.mp hi), Bool.true_and]
    cases hvalid : valid len s.metadata i with
    | false => rfl
    | true =>
      obtain ⟨-, hslot⟩ := h i (Finset.mem_range.mp hi)
      have hinst : inst len s.metadata i = true := (Bool.and_eq_true _ _ ▸ hvalid).1
      obtain ⟨val, hval⟩ := Option.isSome_iff_exists.mp (hslot.trans hinst)
      have hval' : s.slots i = some val := hval
      rw [hval']
      rfl
  · rw [hbit i hi, decide_eq_false (fun hc => hout (Finset.mem_range.mpr hc))]
    rfl

/-- No slot of a storage that nobody uses is owned. -/
theorem Unowned.ownedBitmap_eq (hlen : ArrayLen bits len) (h : Unowned len s) :
    Storage.ownedBitmap len s.metadata = 0 := by
  refine BitVec.eq_of_getLsbD_eq fun i _ => ?_
  rw [getLsbD_ownedBitmap hlen]
  by_cases hi : i < len
  · have howned : owned s.metadata i = false := (h i hi).1
    simp [howned]
  · simp [hi]

/-- An instantiated slot is valid if nobody uses the storage. -/
theorem Unowned.not_dead (h : Unowned len s) (hi : Instantiated len s) : ¬Dead len s := by
  obtain ⟨i, hlt, hinst⟩ := hi
  intro hd
  have howned : owned s.metadata i = false := (h i hlt).1
  have hvalid := hd i hlt
  simp [valid, hinst, howned] at hvalid

theorem Unowned.contents_ne (h : Unowned len s) (hd : ¬Dead len s) : contents len s ≠ 0 := by
  intro hzero
  refine hd fun i hi => ?_
  by_contra hvalid
  rw [Bool.not_eq_false] at hvalid
  have hslot : (s.slots i).isSome = true :=
    (h i hi).2.trans ((Bool.and_eq_true _ _ ▸ hvalid).1)
  obtain ⟨val, hval⟩ := Option.isSome_iff_exists.mp hslot
  have hle : (if valid len s.metadata i then held (s.slots i) else 0) ≤ contents len s :=
    Finset.single_le_sum (f := fun i => if valid len s.metadata i then held (s.slots i) else 0)
      (fun _ _ => Multiset.zero_le _) (Finset.mem_range.mpr hi)
  rw [hzero, if_pos hvalid, hval] at hle
  exact absurd (Multiset.mem_of_le hle (Multiset.mem_singleton_self val)) (Multiset.notMem_zero val)

end storage

/-- The storages are still as they were when nobody used them. -/
theorem Tidied.rest {reach : List Addr} (h : Tidied none m₀ m) (hr : Rest len m₀ reach)
    (hpopped : ∀ t, m₀.family.newest (some t) = none) {owner : Addr → Option (Fin n)}
    {tgt : Addr → Option Addr}
    (hs : Stacks m.family.heap m.family.attached owner m.family.newest tgt) :
    ∃ reach, Rest len m reach ∧ reach.filter (fun x => !m.family.heap.isDeleted x) =
      entries m.family.heap m.family.attached owner none := by
  have hstorage : ∀ x ∈ m.family.attached, m.storage x = m₀.storage x := fun x hx =>
    storage_congr (h.value x (h.attached ▸ hx))
  refine Rest.of_stacks hs (fun t => (h.others _ (Option.some_ne_none t)).trans (hpopped t))
    (h.primary ▸ hr.primary) (fun x hx => ?_) (fun x hx hd => ?_) fun x hx hlive => ?_
  · rw [hstorage x hx]
    exact hr.storages x (h.attached ▸ hx)
  · rw [hstorage x hx]
    exact hr.dead x (h.attached ▸ hx) (h.isDeleted ▸ hd)
  · rw [hstorage x hx]
    exact (hr.live x (h.attached ▸ hx) (h.isDeleted ▸ hlive)).2

section len

variable {done : Mem bits T n × Outcome (LenCall bits T) Nat → Prop}
  {owner : Addr → Option (Fin n)} {tgt : Addr → Option Addr} {x : Addr} {l : List Addr} {acc : Nat}

/-- One turn of the loop of `len`, at the entry `x`. The undeleted entries behind are `l`. -/
theorem turn_ends
    (hs : Stacks m.family.heap m.family.attached owner m.family.newest tgt)
    (htidy : Tidied none m₀ m) (hx : x ∈ m₀.family.attached)
    (hl : Threaded (Proofs.next m.family.heap) tgt (some x) (x :: l))
    (hdone : ∀ m, Stacks m.family.heap m.family.attached owner m.family.newest tgt →
      Tidied none m₀ m → Threaded (Proofs.next m.family.heap) tgt (some x) (x :: l) →
      (∀ y, l.head? = some y → y ∈ m₀.family.attached ∧ m₀.family.heap.isDeleted y = false) →
      Ends (Outcome.advance (LenCall.step len)) (Mem.LetsGo LenCall.holds) done
        (m, LenCall.fold (acc + (m₀.storage x).len len) l.head?)) :
    Ends (Outcome.advance (LenCall.step len)) (Mem.LetsGo LenCall.holds) done
      (m, .running (.next acc x (.start x))) := by
  -- `next_ptr` leads to the first entry of `l`, and then the instances of `x` are counted.
  refine next_ends (LenCall.step len) LenCall.holds (.next acc x) (LenCall.advanced acc x)
    (fun _ _ => rfl) (fun _ => rfl) (fun _ _ => rfl) (fun m₁ p hnext => ?_) hs
    (htidy.attached ▸ hx)
  have htidy₁ := htidy.trans (hnext.tidied none)
  have hl₁ := hnext.threaded _ _ hl
  have hhead : p.addr = l.head? := hnext.found.1.trans hl₁.2.head_eq.symm
  show Ends _ _ _ (m₁, Outcome.running (LenCall.count acc x p.addr))
  have hlive : ∀ y, p.addr = some y →
      y ∈ m₀.family.attached ∧ m₀.family.heap.isDeleted y = false := by
    intro y hy
    rw [← htidy₁.attached, ← htidy₁.isDeleted]
    exact hnext.found.2 y hy
  rw [hhead] at hlive ⊢
  refine Ends.of_step (fun s : Mem bits T n × Outcome (LenCall bits T) Nat =>
    s.2 = .running (.count acc x l.head?) ∧
      Stacks s.1.family.heap s.1.family.attached owner s.1.family.newest tgt ∧
      Tidied none m₀ s.1 ∧ Threaded (Proofs.next s.1.family.heap) tgt (some x) (x :: l))
    (fun s s' hat he => ?_) (fun s hat => ?_) ⟨rfl, hnext.words, htidy₁, hl₁⟩
  · obtain ⟨hout, hs, htidy, hl⟩ := hat
    obtain ⟨y, hlt, hun, hword, -, rfl⟩ := he
    exact ⟨hout, hs.release hlt hun hword, htidy.release y, hl⟩
  · obtain ⟨m, out⟩ := s
    obtain ⟨rfl, hs, htidy, hl⟩ := hat
    refine ⟨_, rfl, ?_⟩
    have hsame : m.storage x = m₀.storage x := storage_congr (htidy.value x hx)
    show Ends _ _ _ (m, LenCall.fold (acc + (m.storage x).len len) l.head?)
    rw [hsame]
    exact hdone m hs htidy hl hlive

/-- The loop of `len` returns the number of instances. -/
theorem fold_ends {k : Nat}
    (hs : Stacks m.family.heap m.family.attached owner m.family.newest tgt)
    (htidy : Tidied none m₀ m) (hx : x ∈ m₀.family.attached)
    (hl : Threaded (Proofs.next m.family.heap) tgt (some x) (x :: l))
    (hk : acc + ((x :: l).map fun y => (m₀.storage y).len len).sum = k)
    (hdone : ∀ m, Kept m₀ m → done (m, .done k)) :
    Ends (Outcome.advance (LenCall.step len)) (Mem.LetsGo LenCall.holds) done
      (m, .running (.next acc x (.start x))) := by
  induction l generalizing m acc x with
  | nil =>
    refine turn_ends hs htidy hx hl fun m hs htidy _ _ => .done ?_
    have hsum : acc + (m₀.storage x).len len = k := by
      rw [← hk]
      simp
    show done (m, .done (acc + (m₀.storage x).len len))
    rw [hsum]
    exact hdone m ⟨htidy, owner, tgt, hs⟩
  | cons y l ih =>
    refine turn_ends hs htidy hx hl fun m hs htidy hl hhead => ?_
    obtain ⟨hy, hlive⟩ := hhead y rfl
    have hlive' : m.family.heap.isDeleted y = false := (congrFun htidy.isDeleted y).trans hlive
    refine ih hs htidy hy ⟨hs.heap.skip.live y hlive', hl.2.2⟩ ?_
    rw [← hk, List.map_cons, List.sum_cons]
    exact Nat.add_assoc _ _ _

variable {reach : List Addr}

/-- The number of instances in a bag at rest. -/
theorem Rest.card_eq (hlen : ArrayLen bits len) (hr : Rest len m reach) {l : List Addr}
    (hnodup : l.Nodup) (hsub : ∀ x ∈ l, x ∈ m.family.attached)
    (hlive : ∀ x ∈ m.family.attached, m.family.heap.isDeleted x = false → x ∈ l) :
    (stored len m).card = m.primary.len len + (l.map fun x => (m.storage x).len len).sum := by
  rw [hr.stored_eq hnodup hsub hlive, Multiset.card_add, hr.primary.1.len_eq hlen hr.primary.2]
  refine congrArg _ ?_
  have hsum : ∀ l : List Addr, (∀ x ∈ l, x ∈ m.family.attached) →
      (l.map fun x => contents len (m.storage x)).sum.card
        = (l.map fun x => (m.storage x).len len).sum := by
    intro l hl
    induction l with
    | nil => rfl
    | cons x l ih =>
      obtain ⟨hunowned, hhigh⟩ := hr.storages x (hl x List.mem_cons_self)
      rw [List.map_cons, List.sum_cons, Multiset.card_add, List.map_cons, List.sum_cons,
        ih fun y hy => hl y (List.mem_cons_of_mem x hy), hunowned.len_eq hlen hhigh]
  exact hsum l hsub

/-- A call of `len` counts the instances. -/
theorem len_ends (hlen : ArrayLen bits len) (hr : Rest len m reach)
    (hpopped : ∀ t, m.family.newest (some t) = none) {owner : Addr → Option (Fin n)}
    {tgt : Addr → Option Addr}
    (hs : Stacks m.family.heap m.family.attached owner m.family.newest tgt)
    (hdone : ∀ m', Kept m m' → done (m', .done (stored len m).card)) :
    Ends (Outcome.advance (LenCall.step len)) (Mem.LetsGo LenCall.holds) done
      (m, .running .start) := by
  refine look_ends (LenCall.step len) LenCall.holds none .iter LenCall.cleaned (fun _ _ => rfl)
    (fun _ => rfl) (fun _ _ => rfl) (.inl rfl) (fun m' owner tgt res htidy hs hanswer hlook => ?_) hs
  obtain ⟨d, hanswer⟩ := hanswer
  obtain ⟨o, rfl⟩ := hanswer.of_peek
  obtain ⟨hnewest, hlive⟩ := hlook
  obtain ⟨reach', hr', hentries⟩ := htidy.rest hr hpopped hs
  have hlist := hs.list none
  -- The undeleted entries from `newest` on are counted.
  have hcard : (stored len m).card = m.primary.len len +
      ((entries m'.family.heap m'.family.attached owner none).map fun x =>
        (m.storage x).len len).sum := by
    rw [← htidy.stored, hr'.card_eq hlen (hs.nodup_entries none)
      (fun x hx => (mem_entries.mp hx).1) fun x hx hlive => ?_]
    · rw [htidy.primary]
      refine congrArg _ (congrArg _ (List.map_congr_left fun x hx => ?_))
      rw [storage_congr (htidy.value x (htidy.attached ▸ (mem_entries.mp hx).1))]
    · rw [← hentries]
      exact List.mem_filter.mpr ⟨(hr'.live x hx hlive).1, by rw [hlive]; rfl⟩
  refine Ends.of_step (fun s : Mem bits T n × Outcome (LenCall bits T) Nat =>
    s.2 = .running (.primary o) ∧ Tidied none m s.1 ∧
      Stacks s.1.family.heap s.1.family.attached owner s.1.family.newest tgt ∧
      Threaded (Proofs.next s.1.family.heap) tgt o
        (entries m'.family.heap m'.family.attached owner none))
    (fun s s' hat he => ?_) (fun s hat => ?_) ⟨rfl, htidy, hs, hnewest ▸ hlist⟩
  · obtain ⟨hout, htidy, hs, hl⟩ := hat
    obtain ⟨y, hlt, hun, hword, -, rfl⟩ := he
    exact ⟨hout, htidy.release y,
      hs.release hlt hun hword, hl⟩
  · obtain ⟨m₁, out⟩ := s
    obtain ⟨rfl, htidy₁, hs₁, hl⟩ := hat
    refine ⟨_, rfl, ?_⟩
    show Ends _ _ _ (m₁, LenCall.fold (m₁.primary.len len) o)
    rw [htidy₁.primary]
    cases o with
    | none =>
      rw [show entries m'.family.heap m'.family.attached owner none = [] from
        List.head?_eq_none_iff.mp hl.head_eq, List.map_nil, List.sum_nil, add_zero] at hcard
      refine .done ?_
      show done (m₁, .done (m.primary.len len))
      rw [← hcard]
      exact hdone m₁ ⟨htidy₁, _, _, hs₁⟩
    | some x =>
      have hx' : m₁.family.heap.isDeleted x = false := by
        rw [htidy₁.isDeleted, ← htidy.isDeleted]
        exact hlive x rfl
      have hhead : (entries m'.family.heap m'.family.attached owner none).head? = some x :=
        hl.head_eq.trans (hs₁.heap.skip.live x hx')
      cases hent : entries m'.family.heap m'.family.attached owner none with
      | nil =>
        rw [hent] at hhead
        cases hhead
      | cons y l =>
        have hatt : y ∈ m.family.attached := by
          rw [← htidy.attached]
          exact (mem_entries.mp (hent ▸ List.mem_cons_self)).1
        rw [hent] at hhead hl hcard
        cases hhead
        exact fold_ends hs₁ htidy₁ hatt hl hcard.symm hdone

/-- `len` returns the number of instances. -/
theorem len_gives (hlen : ArrayLen bits len) (hr : Rest len m reach)
    (hpopped : ∀ t, m.family.newest (some t) = none) {owner : Addr → Option (Fin n)}
    {tgt : Addr → Option Addr}
    (hs : Stacks m.family.heap m.family.attached owner m.family.newest tgt) :
    m.Gives (LenCall.step len) LenCall.holds .start (stored len m).card :=
  len_ends hlen hr hpopped hs fun m' _ => ⟨m', rfl⟩

/-- A call of `is_empty` finds out whether there is no instance. -/
theorem isEmpty_ends {done : Mem bits T n × Outcome (EmptyCall bits T) Bool → Prop}
    (hlen : ArrayLen bits len) (hr : Rest len m reach)
    (hpopped : ∀ t, m.family.newest (some t) = none) {owner : Addr → Option (Fin n)}
    {tgt : Addr → Option Addr}
    (hs : Stacks m.family.heap m.family.attached owner m.family.newest tgt)
    (hdone : ∀ m', Kept m m' → done (m', .done (decide ((stored len m).card = 0)))) :
    Ends (Outcome.advance (EmptyCall.step len)) (Mem.LetsGo EmptyCall.holds) done
      (m, .running .start) := by
  have hprimary := hr.primary.1.len_eq hlen hr.primary.2
  have hstored := hr.stored_eq hr.nodup hr.attached fun x hx hlive => (hr.live x hx hlive).1
  refine Ends.of_step (fun s : Mem bits T n × Outcome (EmptyCall bits T) Bool =>
    s.2 = .running .primary ∧ Tidied none m s.1 ∧
      Stacks s.1.family.heap s.1.family.attached owner s.1.family.newest tgt)
    (fun s s' hat he => ?_) (fun s hat => ?_) ⟨rfl, .refl none m, hs⟩
  · obtain ⟨hout, htidy, hs⟩ := hat
    obtain ⟨y, hlt, hun, hword, -, rfl⟩ := he
    exact ⟨hout, htidy.release y,
      hs.release hlt hun hword⟩
  · obtain ⟨m₁, out⟩ := s
    obtain ⟨rfl, htidy, hs⟩ := hat
    refine ⟨_, rfl, ?_⟩
    simp only [EmptyCall.step]
    rw [htidy.primary]
    by_cases hzero : m.primary.len len = 0
    · rw [if_pos hzero]
      -- The primary storage is empty: the stack decides.
      have hnone : contents len m.primary = 0 := Multiset.card_eq_zero.mp (hprimary ▸ hzero)
      refine look_ends (EmptyCall.step len) EmptyCall.holds none .stack EmptyCall.looked
        (fun _ _ => rfl) (fun _ => rfl) (fun _ _ => rfl) (.inr rfl)
        (fun m₂ owner tgt res htidy₂ hs₂ hanswer hlook => ?_) hs
      obtain ⟨d, hanswer⟩ := hanswer
      obtain ⟨b, rfl⟩ := hanswer.of_isEmpty
      obtain ⟨hnewest, hlive⟩ := hlook
      have htidy' := htidy.trans htidy₂
      obtain ⟨reach', hr', -⟩ := htidy'.rest hr hpopped hs₂
      have hstored' := hr'.stored_eq hr'.nodup hr'.attached fun x hx hlive => (hr'.live x hx hlive).1
      rw [htidy'.stored, htidy'.primary, hnone, zero_add] at hstored'
      have hb : b = decide ((stored len m).card = 0) := ?_
      · refine .done ?_
        show done (m₂, .done b)
        rw [hb]
        exact hdone m₂ ⟨htidy', owner, tgt, hs₂⟩
      cases hword : m₂.family.newest none with
      | none =>
        have hnil : reach' = [] := Linked.eq_nil (hword ▸ hr'.linked)
        rw [hnil] at hstored'
        rw [show stored len m = 0 from hstored', decide_eq_true Multiset.card_zero, ← hnewest]
        show (m₂.family.newest none).isNone = true
        rw [hword]
        rfl
      | some x =>
        obtain ⟨hx, -⟩ := hs₂.roots none x hword
        have hlive' := hlive x hword
        obtain ⟨hmem, hinst⟩ := hr'.live x hx hlive'
        have hne : stored len m ≠ 0 := by
          intro hc
          rw [hc] at hstored'
          have hle : contents len (m₂.storage x) ≤
              (reach'.map fun x => contents len (m₂.storage x)).sum :=
            List.single_le_sum (fun _ _ => Multiset.zero_le _) _ (List.mem_map_of_mem hmem)
          rw [← hstored'] at hle
          have hunowned := (hr'.storages x hx).1
          exact hunowned.contents_ne (hunowned.not_dead hinst) (Multiset.le_zero.mp hle)
        rw [decide_eq_false fun hc => hne (Multiset.card_eq_zero.mp hc), ← hnewest]
        show (m₂.family.newest none).isNone = false
        rw [hword]
        rfl
    · rw [if_neg hzero]
      have hne : (stored len m).card ≠ 0 := by
        intro hc
        refine hzero ?_
        rw [hprimary]
        rw [Multiset.card_eq_zero.mp hc] at hstored
        exact Multiset.card_eq_zero.mpr (Multiset.le_zero.mp (hstored ▸ Multiset.le_add_right _ _))
      refine .done ?_
      rw [← decide_eq_false hne]
      exact hdone m₁ ⟨htidy, _, _, hs⟩

/-- `is_empty` returns whether there is no instance. -/
theorem isEmpty_gives (hlen : ArrayLen bits len) (hr : Rest len m reach)
    (hpopped : ∀ t, m.family.newest (some t) = none) {owner : Addr → Option (Fin n)}
    {tgt : Addr → Option Addr}
    (hs : Stacks m.family.heap m.family.attached owner m.family.newest tgt) :
    m.Gives (EmptyCall.step len) EmptyCall.holds .start (decide ((stored len m).card = 0)) :=
  isEmpty_ends hlen hr hpopped hs fun m' _ => ⟨m', rfl⟩

end len

section pop

variable {w w' : World bits T n} {t : Fin n} {H : List (Event (Fin n) (Op T) (Res T))}
  {S : Multiset T}

/-- `pop` gives up only if the storage has no valid slot. -/
theorem popLoop_done (hlen : ArrayLen bits len) {r : Option T × Bool}
    (hd : PopCall.loop len s.metadata = .done r) : r = (none, false) ∧ Dead len s := by
  unfold PopCall.loop at hd
  simp only at hd
  split at hd
  · cases hd
  · rename_i hsearch
    cases hd
    refine ⟨rfl, fun i hi => ?_⟩
    have h32 := Nat.lt_of_lt_of_le hi hlen.le_32
    rcases search_none hlen.le_32 (fun j hj => by omega) hsearch hi with hinst | howned
    · rw [BitVec.getLsbD_not, getLsbD_instanceBitmap h32] at hinst
      simp [valid, h32] at hinst ⊢
      simp [hinst]
    · rw [getLsbD_ownedBitmap hlen] at howned
      simp [valid, hi] at howned ⊢
      simp [howned]

/-- What a call of `pop` that runs alone has seen. -/
def Sees (len : Nat) (m : Mem bits T n) : Call bits T → Prop
  | .popPeek _ => True
  | .popStorage x call => call = .load ∨ (∃ metadata index, call = .exchange metadata index) →
    ¬Dead len (m.storage x)
  | .popDelete _ val => val.isSome = true
  | .popPrimary _ => m.family.newest none = none
  | _ => False

/-- Where a thread that calls `pop` alone stands. `S` are the instances that were in the bag. -/
def PopPlace (len : Nat) (w : World bits T n) (t : Fin n)
    (H : List (Event (Fin n) (Op T) (Res T))) (S : Multiset T) : Pc bits T → Prop
  | .idle => ∃ o, w.history = H ++ [.result t .pop (.popped o)] ∧ (o.isSome = true ↔ S.card ≠ 0)
  | .call c => c.op = .pop ∧ w.history = H ∧ Sees len w.mem c ∧ stored len w.mem + callHolds c = S
  | .drop _ => False

/-- The thread `t` calls `pop` alone. -/
structure PopAlone (len : Nat) (t : Fin n) (H : List (Event (Fin n) (Op T) (Res T)))
    (S : Multiset T) (w : World bits T n) : Prop where
  inv : Inv len w.mem w.pc
  others : ∀ u, u ≠ t → ∀ c, w.pc u ≠ .call c
  place : PopPlace len w t H S (w.pc t)

variable (hlen : ArrayLen bits len)
include hlen

/-- What a call of `pop` sees next. -/
theorem sees_step (h : PopAlone len t H S w) {c : Call bits T} (hpc : w.pc t = .call c) :
    outcome (Sees len (c.step len false t w.mem).1)
      (fun res => ∃ o, res = .popped o ∧ (o.isSome = true ↔ S.card ≠ 0))
      (c.step len false t w.mem).2 := by
  have hplace := h.place
  rw [hpc] at hplace
  obtain ⟨hop, -, hsees, hstored⟩ := hplace
  have ha := call_after hlen h.inv hpc false
  -- A value that is returned was in the bag.
  have hreturns : ∀ {val : T},
      (c.step len false t w.mem).2 = .done (.popped (some val)) → S.card ≠ 0 := by
    intro val hout hc
    have heq := ha.stored
    rw [hstored, hout, Multiset.card_eq_zero.mp hc] at heq
    have hle : ({val} : Multiset T) ≤ 0 := heq ▸ Multiset.le_add_left _ _
    exact absurd (Multiset.mem_of_le hle (Multiset.mem_singleton_self val)) (Multiset.notMem_zero val)
  have hfree : ∀ p : Pc bits T, Free p → ∀ u, Free (Function.update w.pc t p u) := by
    intro p hp u
    by_cases hu : u = t
    · rw [hu, Function.update_self]
      exact hp
    · rw [Function.update_of_ne hu]
      exact free_of_not_call (h.others u hu)
  cases c with
  | popPeek call =>
    have hstep : (Call.popPeek call : Call bits T).step len false t w.mem =
      (w.mem.setFamily (w.mem.family.setMem none ((w.mem.family.mem none).step call).1),
        Call.popPeeked ((w.mem.family.mem none).step call).2) := rfl
    obtain ⟨heffect, -⟩ := stack_effect h.inv hpc rfl none
    have hquiet := heffect.quiet_of (.inl (h.inv.calls t _ hpc))
    rw [hstep] at ha ⊢
    cases hout : ((w.mem.family.mem none).step call).2 with
    | running call' => exact trivial
    | done res =>
      have hanswer := hquiet.done res hout
      rw [show call.op = .peek from h.inv.calls t _ hpc] at hanswer
      obtain ⟨o, rfl⟩ := hanswer.of_peek
      rw [hout] at ha
      cases o with
      | none =>
        show Function.update w.mem.family.newest none _ none = none
        rw [Function.update_self]
        exact hanswer.2
      | some x =>
        intro _
        have hatt := ha.inv.used (t := t) (x := x) (b := false) (by rw [Function.update_self]; rfl)
        obtain ⟨reach, hr⟩ := rest ha.inv
          (hfree _ ⟨fun loc => claims_load rfl, rfl, rfl, rfl⟩)
        exact (hr.storages x hatt).1.not_dead (hr.live x hatt hanswer.2).2
  | popStorage x call =>
    have hset : (w.mem.setStorage x (w.mem.storage x)).storage x = w.mem.storage x :=
      storage_setStorage.trans (if_pos rfl)
    -- The loop finds a slot.
    have hloop : ¬Dead len (w.mem.storage x) →
        outcome (Sees len (w.mem.setStorage x (w.mem.storage x)))
          (fun res => ∃ o, res = .popped o ∧ (o.isSome = true ↔ S.card ≠ 0))
          (Call.poppedStorage x (PopCall.loop len (w.mem.storage x).metadata)) := by
      intro hd
      cases hout : PopCall.loop len (w.mem.storage x).metadata with
      | running call' => exact fun _ => by rw [hset]; exact hd
      | done r => exact absurd (popLoop_done hlen hout).2 hd
    cases call with
    | load => exact hloop (hsees (.inl rfl))
    | exchange metadata index =>
      simp only [Call.step, PopCall.step]
      split
      · exact fun hc => by
          rcases hc with hc | ⟨_, _, hc⟩
          · cases hc
          · cases hc
      · exact hloop (hsees (.inr ⟨_, _, rfl⟩))
    | read index =>
      simp only [Call.step, PopCall.step]
      split
      · exact fun hc => by
          rcases hc with hc | ⟨_, _, hc⟩
          · cases hc
          · cases hc
      · exact fun hc => by
          rcases hc with hc | ⟨_, _, hc⟩
          · cases hc
          · cases hc
    | clear inst index =>
      obtain ⟨empty, hout⟩ : ∃ empty,
          ((Call.popStorage x (.clear inst index)).step len false t w.mem).2
            = Call.poppedStorage x (.done (some inst, empty)) := ⟨_, rfl⟩
      rw [hout]
      cases empty with
      | true => exact rfl
      | false => exact ⟨some inst, rfl, fun _ => hreturns hout, fun _ => rfl⟩
    | uninit =>
      exact fun hc => by
        rcases hc with hc | ⟨_, _, hc⟩
        · cases hc
        · cases hc
  | popDelete x val =>
    obtain ⟨v, rfl⟩ := Option.isSome_iff_exists.mp hsees
    exact ⟨some v, rfl, fun _ => hreturns rfl, fun _ => rfl⟩
  | popPrimary call =>
    have hnewest : w.mem.family.newest none = none := hsees
    -- The loop finds no slot only if the bag is empty.
    have hloop : Free (.call (.popPrimary call) : Pc bits T) → popHolds call = 0 →
        outcome (Sees len (w.mem.setPrimary w.mem.primary))
          (fun res => ∃ o, res = .popped o ∧ (o.isSome = true ↔ S.card ≠ 0))
          (Call.poppedPrimary (PopCall.loop len w.mem.primary.metadata)) := by
      intro hp hholds
      cases hout : PopCall.loop len w.mem.primary.metadata with
      | running call' => exact hnewest
      | done r =>
        obtain ⟨rfl, hd⟩ := popLoop_done hlen hout
        have hall := hfree _ hp
        rw [← hpc, Function.update_eq_self] at hall
        obtain ⟨reach, hr⟩ := rest h.inv hall
        have heq := hr.stored_eq hr.nodup hr.attached fun x hx hlive => (hr.live x hx hlive).1
        have hnil : reach = [] := Linked.eq_nil (hnewest ▸ hr.linked)
        rw [hnil, hr.primary.1.contents_eq, hr.primary.1.values_dead hd] at heq
        have hzero : S = 0 := by
          rw [← hstored, heq, List.map_nil, List.sum_nil, zero_add, zero_add]
          exact hholds
        exact ⟨none, rfl, by simp [hzero]⟩
    cases call with
    | load => exact hloop ⟨fun _ => claims_load rfl, rfl, rfl, rfl⟩ rfl
    | exchange metadata index =>
      simp only [Call.step, PopCall.step]
      split
      · exact hnewest
      · exact hloop ⟨fun _ => claims_load rfl, rfl, rfl, rfl⟩ rfl
    | read index =>
      simp only [Call.step, PopCall.step]
      split
      · exact hnewest
      · exact hnewest
    | clear inst index => exact ⟨some inst, rfl, fun _ => hreturns rfl, fun _ => rfl⟩
    | uninit => exact hnewest
  | pushPrimary tries val call => exact hsees.elim
  | pushPeek val call => exact hsees.elim
  | pushStorage val x call => exact hsees.elim
  | pushNew val call => exact hsees.elim
  | allSwap => exact hsees.elim
  | allPop acc call => exact hsees.elim
  | allStorage x call => exact hsees.elim
  | allPrimary call => exact hsees.elim

/-- The access of a thread that calls `pop` alone. -/
theorem PopAlone.step (h : PopAlone len t H S w) (hw : w.proceed len t false = some w') :
    PopAlone len t H S w' := by
  have hplace := h.place
  cases hpc : w.pc t with
  | idle =>
    unfold World.proceed at hw
    rw [hpc] at hw
    cases hw
  | drop c =>
    rw [hpc] at hplace
    exact hplace.elim
  | call c =>
    rw [hpc] at hplace
    obtain ⟨hop, hH, -, hstored⟩ := hplace
    have ha := call_after hlen h.inv hpc false
    have hsees := sees_step hlen h hpc
    have hinv := called_inv hlen false h.inv hpc
    cases (proceed_eq hpc).symm.trans hw
    rw [hop] at hinv ⊢
    generalize c.step len false t w.mem = r at ha hsees hinv
    obtain ⟨m, out⟩ := r
    have hothers : ∀ p, ∀ u, u ≠ t → ∀ c, Function.update w.pc t p u ≠ .call c := by
      intro p u hu c
      rw [Function.update_of_ne hu]
      exact h.others u hu c
    cases out with
    | running c' =>
      refine ⟨hinv, hothers _, ?_⟩
      show PopPlace len _ t H S (Function.update w.pc t (.call c') t)
      rw [Function.update_self]
      exact ⟨ha.op.trans hop, hH, hsees, ha.stored.trans hstored⟩
    | done res =>
      refine ⟨hinv, hothers _, ?_⟩
      show PopPlace len _ t H S (Function.update w.pc t .idle t)
      rw [Function.update_self]
      obtain ⟨o, rfl, ho⟩ := hsees
      exact ⟨o, congrArg (· ++ _) hH, ho⟩

omit hlen in
/-- An entry is released. -/
theorem PopAlone.release (h : PopAlone len t H S w) (hr : World.Releases len w w') :
    PopAlone len t H S w' := by
  obtain ⟨x, rfl, h', -⟩ := releases_eq h.inv hr
  refine ⟨h', h.others, ?_⟩
  have hplace := h.place
  show PopPlace len _ t H S (w.pc t)
  cases hpc : w.pc t with
  | idle =>
    rw [hpc] at hplace
    exact hplace
  | drop c =>
    rw [hpc] at hplace
    exact hplace
  | call c =>
    rw [hpc] at hplace
    obtain ⟨hop, hH, hsees, hstored⟩ := hplace
    refine ⟨hop, hH, ?_, ?_⟩
    · cases c <;> exact hsees
    · rw [← hstored]
      exact congrArg (· + _) (stored_congr rfl rfl fun _ _ => rfl)

/-- `pop` returns an instance if and only if there is one. -/
theorem pop_gives (h : Inv len w.mem w.pc) (hrest : AtRest w)
    (hw : w.step len (.thread t (.invoke .pop)) = some w') :
    Ends (fun w => w.proceed len t false) (World.Releases len) (fun u => u.pc t = .idle ∧
      ∃ o, u.history = w'.history ++ [.result t .pop (.popped o)] ∧
        (o.isSome = true ↔ (stored len w.mem).card ≠ 0)) w' := by
  have hreturns := returns hlen h t .pop w' hw
  have hinv := inv_step hlen h hw
  have halone : PopAlone len t w'.history (stored len w.mem) w' := by
    cases stepped hw with
    | invoke t op hpc =>
      refine ⟨hinv, fun u hu c => ?_, ?_⟩
      · show Function.update w.pc t _ u ≠ _
        rw [Function.update_of_ne hu]
        exact hrest u c
      · show PopPlace len _ t _ _ (Function.update w.pc t _ t)
        rw [Function.update_self]
        exact ⟨rfl, rfl, trivial, add_zero _⟩
  refine (hreturns.keeps (PopAlone len t w'.history (stored len w.mem))
    (fun _ _ h he => h.release he) (fun _ _ h hs => h.step hlen hs) halone).imp fun u hu => ?_
  obtain ⟨hidle, halone⟩ := hu
  have hplace := halone.place
  rw [hidle] at hplace
  exact ⟨hidle, hplace⟩

end pop

/-- The observers of a bag agree when no call is in progress:

* no slot is owned;
* the storage in each undeleted entry from `newest` on has an instance;
* `len` returns the number of values that were accepted and did not come out, `is_empty` whether
  it is zero, and `pop` returns a value if and only if it is not. -/
theorem observers_agree {w : World bits T n} (hlen : ArrayLen bits len)
    (h : Run (World.step len) (fun _ _ => True) (World.init : World bits T n) w)
    (hrest : AtRest w) :
    (Storage.ownedBitmap len w.mem.primary.metadata = 0 ∧
      ∀ x ∈ w.mem.family.attached, Storage.ownedBitmap len (w.mem.storage x).metadata = 0) ∧
    (∀ reach, Linked (Proofs.next w.mem.family.heap) (w.mem.family.newest none) reach →
      ∀ x ∈ reach, w.mem.family.heap.isDeleted x = false → (w.mem.storage x).len len ≠ 0) ∧
    ∃ k, k + (handed w).card = (accepted w.history).card ∧
      w.mem.Gives (LenCall.step len) LenCall.holds .start k ∧
      w.mem.Gives (EmptyCall.step len) EmptyCall.holds .start (decide (k = 0)) ∧
      ∀ t w', w.step len (.thread t (.invoke .pop)) = some w' →
        Ends (fun w => w.proceed len t false) (World.Releases len) (fun u => u.pc t = .idle ∧
          ∃ o, u.history = w'.history ++ [.result t .pop (.popped o)] ∧
            (o.isSome = true ↔ k ≠ 0)) w' := by
  obtain ⟨hinv, hbal, hset⟩ := balanced_of_run hlen h
  obtain ⟨reach, hr⟩ := rest hinv fun t => free_of_not_call (hrest t)
  obtain ⟨owner, tgt, hf⟩ := hinv.family
  have hpopped : ∀ t, w.mem.family.newest (some t) = none := fun t =>
    hinv.popped t (free_of_not_call (hrest t)).popped
  refine ⟨⟨hr.primary.1.ownedBitmap_eq hlen, fun x hx => (hr.storages x hx).1.ownedBitmap_eq hlen⟩,
    fun reach' hl x hx hlive => ?_, (stored len w.mem).card, ?_, len_gives hlen hr hpopped hf.words,
    isEmpty_gives hlen hr hpopped hf.words, fun t w' hw => pop_gives hlen hinv hrest hw⟩
  · obtain rfl := hl.unique hr.linked
    have hatt := hr.attached x hx
    obtain ⟨hunowned, hhigh⟩ := hr.storages x hatt
    rw [hunowned.len_eq hlen hhigh]
    exact fun hc => hunowned.contents_ne (hunowned.not_dead (hr.live x hatt hlive).2)
      (Multiset.card_eq_zero.mp hc)
  · rw [← Multiset.card_add, stored_add_handed hbal hset hrest]

/-- Two values are pushed, the latter into a new storage, and one of them is popped. -/
theorem observers_agree_popped : ∃ w : World 64 Nat 2,
    (accepted w.history).card = 2 ∧ (handed w).card = 1 ∧
      w.mem.Gives (LenCall.step 1) LenCall.holds .start 1 ∧
      w.mem.Gives (EmptyCall.step 1) EmptyCall.holds .start false := by
  have h : (exec (World.step 1) (fun _ _ => true) (World.init : World 64 Nat 2)
      (call 0 (.push 5) 4 ++ call 0 (.push 7) 5 ++ call 1 .pop 7)).any (fun w =>
        allIdle w && ((accepted w.history).card == 2 && (handed w).card == 1)) = true := by
    decide +kernel
  obtain ⟨w, hw, h⟩ := Run.of_exec_any h
  simp only [Bool.and_eq_true, beq_iff_eq] at h
  obtain ⟨hidle, hacc, hhanded⟩ := h
  obtain ⟨-, -, k, hk, hgives, hempty, -⟩ := observers_agree ⟨by decide, by decide, by decide⟩
    (hw.mono fun _ _ _ => trivial) (atRest_of_allIdle hidle)
  rw [hacc, hhanded] at hk
  obtain rfl : k = 1 := Nat.succ.inj hk
  exact ⟨w, hacc, hhanded, hgives, hempty⟩

end Sdd.Proofs.Bag
