import Sdd.Proofs.Writes
import Sdd.Stack

/-!
# `Sdd.Proofs.Stack.Words`: the writes to stacks

A family of stacks shares one heap: the stack `i` has the word `word i`, which is its
`newest`, and the entries `x` with `owner x = i`. `Stacks` says that from each word on the
undeleted entries of the stack come in the order in which they were attached, the last one
first. `tgt` is the ghost function that leads each entry to the first one from it on that is
not deleted.

The lemmas say what each kind of write does to the stacks: the clean-up of a link, the
creation of an entry, the store to the link of an entry that is not attached, its attachment,
a new value of a word, a deletion, and the release of an entry. What a write leaves to the
calls of the other threads is in `Sdd.Proofs.Writes`.
-/

set_option autoImplicit false

namespace Sdd.Proofs.Stack

open Sdd.Lib Sdd.Stack

variable {T ι : Type} [DecidableEq ι]

/-- The undeleted entries of a stack, the last one attached first. -/
def entries (h : Heap T) (att : List Addr) (owner : Addr → ι) (i : ι) : List Addr :=
  att.filter fun x => !h.isDeleted x && decide (owner x = i)

/-- How the words of stacks are related. -/
structure Stacks (h : Heap T) (att : List Addr) (owner : Addr → ι) (word : ι → Option Addr)
    (tgt : Addr → Option Addr) : Prop where
  heap : HeapOk h (listView att h.isDeleted tgt)
  list : ∀ i, Threaded (next h) tgt (word i) (entries h att owner i)
  nodup : att.Nodup
  roots : ∀ i x, word i = some x → x ∈ att ∧ h.released x = false
  unattached : ∀ x, x ∉ att → h.isDeleted x = false
  leads : ∀ x y, next h x = some y → y ∈ att

variable {h h' h'' : Heap T} {att att' att'' : List Addr} {owner : Addr → ι}
  {word : ι → Option Addr} {tgt tgt' tgt'' : Addr → Option Addr} {i : ι} {x : Addr}
  {own : Option Addr}

theorem mem_entries :
    x ∈ entries h att owner i ↔ x ∈ att ∧ h.isDeleted x = false ∧ owner x = i := by
  simp [entries]

namespace Stacks

/-- The first undeleted entry of a stack is the one that its word leads to. -/
theorem head_eq (hs : Stacks h att owner word tgt) (i : ι) :
    (entries h att owner i).head? = (word i).bind tgt :=
  (hs.list i).head_eq

theorem nodup_entries (hs : Stacks h att owner word tgt) (i : ι) :
    (entries h att owner i).Nodup :=
  hs.nodup.filter _

/-- An entry that was released is deleted. -/
theorem dead_of_released (hs : Stacks h att owner word tgt) (hx : x ∈ att)
    (hrel : h.released x = true) : h.isDeleted x = true := by
  by_contra hlive
  rw [Bool.not_eq_true] at hlive
  have hmem : x ∈ entries h att owner (owner x) := mem_entries.mpr ⟨hx, hlive, rfl⟩
  have hrel' := hs.heap.threaded_unreleased (hs.list _) (fun y hy => hs.roots _ y hy) x hmem
  rw [hrel] at hrel'
  cases hrel'

/-- An entry that is not deleted was not released. -/
theorem unreleased (hs : Stacks h att owner word tgt) (hx : x ∈ att)
    (hlive : h.isDeleted x = false) : h.released x = false := by
  by_contra hrel
  rw [hs.dead_of_released hx ((Bool.not_eq_false _).mp hrel)] at hlive
  cases hlive

end Stacks

section write

/-- A link is cleaned up. -/
theorem Stacks.clean (hs : Stacks h att owner word tgt)
    (hc : Cleans (listView att h.isDeleted tgt) h h') : Stacks h' att owner word tgt where
  heap := by
    rw [hc.isDeleted_eq]
    exact hs.heap.cleans hc
  list j := by
    have heq : entries h' att owner j = entries h att owner j := by
      unfold entries
      rw [hc.isDeleted_eq]
    rw [heq]
    rcases hc with rfl | ⟨x, p, rfl, -, -, htgt⟩
    · exact hs.list j
    · rw [next_setLink]
      exact (hs.list j).redirect htgt
  nodup := hs.nodup
  roots := by
    rw [hc.fields.2.1]
    exact hs.roots
  unattached := by
    rw [hc.isDeleted_eq]
    exact hs.unattached
  leads x y hy := by
    rcases hc with rfl | ⟨z, p, rfl, -, hp, -⟩
    · exact hs.leads x y hy
    · rw [next_setLink] at hy
      by_cases hxz : x = z
      · rw [hxz, Function.update_self] at hy
        exact (hp y hy).1
      · rw [Function.update_of_ne hxz] at hy
        exact hs.leads x y hy

/-- An entry is created. -/
theorem Stacks.create (hs : Stacks h att owner word tgt) (val : T) :
    Stacks (h.alloc val) att owner word tgt :=
  ⟨hs.heap.alloc val, hs.list, hs.nodup, hs.roots, hs.unattached, hs.leads⟩

/-- An entry that nothing refers to is released. -/
theorem Stacks.release (hs : Stacks h att owner word tgt) (hlt : x < h.nextAddr)
    (hx : h.unlinked x = true) (hword : ∀ i, word i ≠ some x) :
    Stacks (h.release x) att owner word tgt where
  heap := hs.heap.release hlt hx
  list := hs.list
  nodup := hs.nodup
  roots j y hy := by
    refine ⟨(hs.roots j y hy).1, ?_⟩
    have hyx : y ≠ x := fun hc => hword j (hc ▸ hy)
    show Function.update h.released x true y = false
    rw [Function.update_of_ne hyx]
    exact (hs.roots j y hy).2
  unattached := hs.unattached
  leads := hs.leads

/-- A word is moved to an entry that leads to the same undeleted entry. -/
theorem Stacks.setWord (hs : Stacks h att owner word tgt) {o : Option Addr}
    (ho : ∀ x, o = some x → x ∈ att ∧ h.released x = false)
    (htgt : o.bind tgt = (word i).bind tgt) :
    Stacks h att owner (Function.update word i o) tgt where
  heap := hs.heap
  list j := by
    by_cases hj : j = i
    · subst hj
      rw [Function.update_self]
      exact (hs.list j).root htgt
    · rw [Function.update_of_ne hj]
      exact hs.list j
  nodup := hs.nodup
  roots j y hy := by
    by_cases hj : j = i
    · rw [hj, Function.update_self] at hy
      exact ho y hy
    · rw [Function.update_of_ne hj] at hy
      exact hs.roots j y hy
  unattached := hs.unattached
  leads := hs.leads

end write

section private_link

variable {e : Addr} {o : Option Addr}

/-- The link of an entry that is not attached is set. -/
theorem Stacks.setPrivate (hs : Stacks h att owner word tgt) (he : e ∉ att)
    (hlt : e < h.nextAddr) (ho : ∀ y, o = some y → y ∈ att ∧ h.released y = false) :
    Stacks (h.setLink e ⟨o, .none⟩) att owner word tgt := by
  have hlive := hs.unattached e he
  have hdel : (h.setLink e ⟨o, .none⟩).isDeleted = h.isDeleted := isDeleted_private hlive
  have hheap : HeapOk (h.setLink e ⟨o, .none⟩) (listView att h.isDeleted tgt) :=
    hs.heap.setLive hlt hlive (.inl rfl) (fun hatt => absurd hatt he) fun _ y hy => (ho y hy).2
  constructor
  case heap =>
    rw [hdel]
    exact hheap
  case list =>
    intro j
    have heq : entries (h.setLink e ⟨o, .none⟩) att owner j = entries h att owner j := by
      unfold entries
      rw [hdel]
    rw [heq, next_setLink]
    refine (hs.list j).congr fun y hy => Function.update_of_ne ?_ _ _
    intro hc
    exact he (hc ▸ (mem_entries.mp hy).1)
  case nodup => exact hs.nodup
  case roots => exact hs.roots
  case unattached =>
    rw [hdel]
    exact hs.unattached
  case leads =>
    intro y z hz
    rw [next_setLink] at hz
    by_cases hye : y = e
    · rw [hye, Function.update_self] at hz
      exact (ho z hz).1
    · rw [Function.update_of_ne hye] at hz
      exact hs.leads y z hz

end private_link

section attach

variable {e : Addr}

/-- The new entry is the first one of its stack. -/
theorem entries_attach (he : e ∉ att) (hlive : h.isDeleted e = false) (j : ι) :
    entries h (e :: att) (Function.update owner e i) j
      = if j = i then e :: entries h att owner j else entries h att owner j := by
  have hold : att.filter (fun x => !h.isDeleted x && decide (Function.update owner e i x = j))
      = entries h att owner j := by
    refine List.filter_congr fun y hy => ?_
    have hye : y ≠ e := fun hc => he (hc ▸ hy)
    rw [Function.update_of_ne hye]
  unfold entries at hold ⊢
  rw [List.filter_cons, Function.update_self, hold, hlive]
  by_cases hj : j = i
  · simp [hj]
  · simp [hj, Ne.symm hj]

/-- An entry is attached to a stack: it is linked to the entry that the word refers to. -/
theorem Stacks.attach (hs : Stacks h att owner word tgt) (he : e ∉ att) (hlt : e < h.nextAddr)
    (hrel : h.released e = false) (hlink : next h e = word i) :
    Stacks h (e :: att) (Function.update owner e i) (Function.update word i (some e)) tgt where
  heap := by
    refine hs.heap.grow rfl rfl ?_ ?_ (fun _ _ _ => before_trans) (before_wf _ _ _)
    · intro y z hy hz
      rcases List.mem_cons.mp hy with rfl | hy
      · have hz' := (hs.roots i z (hlink ▸ hz)).1
        exact ⟨List.mem_cons_of_mem _ hz', before_new he hz'⟩
      · obtain ⟨hz, hyz⟩ := hs.heap.links y z hy hz
        exact ⟨List.mem_cons_of_mem _ hz, before_attach he hyz⟩
    · intro y hy
      rcases List.mem_cons.mp hy with rfl | hy
      · exact hlt
      · exact hs.heap.bound y hy
  list j := by
    rw [entries_attach he (hs.unattached e he)]
    by_cases hj : j = i
    · subst hj
      rw [if_pos rfl, Function.update_self]
      refine (hs.list j).push (hs.heap.skip.live e (hs.unattached e he)) ?_
      rw [hlink]
    · rw [if_neg hj, Function.update_of_ne hj]
      exact hs.list j
  nodup := List.nodup_cons.mpr ⟨he, hs.nodup⟩
  roots j y hy := by
    by_cases hj : j = i
    · rw [hj, Function.update_self] at hy
      have hey : e = y := Option.some.inj hy
      rw [← hey]
      exact ⟨List.mem_cons_self, hrel⟩
    · rw [Function.update_of_ne hj] at hy
      exact ⟨List.mem_cons_of_mem e (hs.roots j y hy).1, (hs.roots j y hy).2⟩
  unattached y hy := hs.unattached y fun hmem => hy (List.mem_cons_of_mem e hmem)
  leads y z hz := List.mem_cons_of_mem e (hs.leads y z hz)

end attach

section delete

variable (hs : Stacks h att owner word tgt) (hx : x ∈ att) (hlive : h.isDeleted x = false)
include hs hx hlive

/-- The entry leaves its stack. -/
theorem entries_kill (j : ι) :
    entries (h.deleteSelf x).1 att owner j = (entries h att owner j).erase x := by
  rw [(hs.nodup_entries j).erase_eq_filter]
  unfold entries
  rw [isDeleted_deleteSelf hlive, List.filter_filter]
  refine List.filter_congr fun y _ => ?_
  by_cases hyx : y = x
  · subst hyx
    simp
  · simp [hyx]

/-- An entry is deleted. -/
theorem Stacks.kill :
    Stacks (h.deleteSelf x).1 att owner word (killed (next h) tgt x) where
  heap := by
    rw [isDeleted_deleteSelf hlive]
    exact hs.heap.kill hlive hx
  list j := by
    rw [entries_kill hs hx hlive, next_deleteSelf hlive]
    by_cases hj : owner x = j
    · exact (hs.list j).kill (hs.nodup_entries j) (mem_entries.mpr ⟨hx, hlive, hj⟩)
    · have hnot : x ∉ entries h att owner j := fun hc => hj (mem_entries.mp hc).2.2
      rw [List.erase_of_not_mem hnot]
      exact (hs.list j).kill_notMem hnot
  nodup := hs.nodup
  roots := by
    rw [deleteSelf_eq hlive]
    exact hs.roots
  unattached y hy := by
    have hyx : y ≠ x := fun hc => hy (hc ▸ hx)
    rw [isDeleted_deleteSelf hlive, Function.update_of_ne hyx]
    exact hs.unattached y hy
  leads := by
    rw [next_deleteSelf hlive]
    exact hs.leads

end delete

end Sdd.Proofs.Stack
