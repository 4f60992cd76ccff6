import Sdd.Proofs.Stacks.Effects
import Sdd.Proofs.Stacks.Returns

/-!
# `Sdd.Proofs.Stacks.Handover`: what `pop_all` hands over

`Contents f i l` says that `l` are the undeleted entries of the stack `i`. A step that works on
another stack leaves them as they are, with one exception: a `pop_if` deletes the entry that it
has read through the `Shared` of it, and `pop_all` can have moved the entry to another stack in the
mean time. `Hands` excludes this step, and `step_iff` says that it is the only one.

`Sole` is what an operation knows that is the only one on its stack. In a run of such operations,
`peek` and the next `pop` answer with the same entry: `popAll_hands_over`.
-/

set_option autoImplicit false

namespace Sdd.Proofs.Stacks

open Sdd.Lib
open Sdd.Stack (Call Mem)
open Sdd.Stacks (Family World Action Op Res Pc)
open Sdd.Proofs.Stack (Stacks CallInv entries mem_entries entries_kill step_steps Attaches)

variable {T ι : Type} [DecidableEq ι] {n : Nat}

/-- The undeleted entries of the stack `i`, the newest first. -/
def Contents (f : Family T ι) (i : ι) (l : List Addr) : Prop :=
  ∃ chain, Linked (next f.heap) (f.newest i) chain ∧ l = chain.filter fun x => !f.heap.isDeleted x

section contents

variable {f f' : Family T ι} {owner : Addr → ι} {tgt : Addr → Option Addr} {i j : ι} {l : List Addr}

/-- The contents are the undeleted entries that belong to the stack. -/
theorem contents_iff (hs : Stacks f.heap f.attached owner f.newest tgt) :
    Contents f i l ↔ l = entries f.heap f.attached owner i := by
  have hthread : ∀ {chain}, Linked (next f.heap) (f.newest i) chain →
      (chain.filter fun x => !f.heap.isDeleted x) = entries f.heap f.attached owner i :=
    fun hlinked => (Threaded.of_linked hs.heap.skip hlinked).unique (hs.list i)
  constructor
  · rintro ⟨chain, hlinked, rfl⟩
    exact hthread hlinked
  · rintro rfl
    obtain ⟨chain, hlinked, -⟩ := hs.heap.linked fun y hy => (hs.roots i y hy).1
    exact ⟨chain, hlinked, (hthread hlinked).symm⟩

omit [DecidableEq ι] in
/-- The contents depend on the links and on `newest`. -/
theorem Contents.congr (h : Contents f i l) (hlink : f'.heap.link = f.heap.link)
    (hnewest : f'.newest i = f.newest i) : Contents f' i l := by
  have hdel : f'.heap.isDeleted = f.heap.isDeleted := by
    funext x
    unfold Heap.isDeleted
    rw [hlink]
  have hnext : next f'.heap = next f.heap := by
    funext x
    unfold next
    rw [hlink]
  unfold Contents
  rw [hnext, hnewest, hdel]
  exact h

/-- A write that keeps the owners and deletes nothing. -/
theorem Contents.write {h' : Heap T} {word' : ι → Option Addr} {tgt' : Addr → Option Addr}
    (h : Contents f j l) (hs : Stacks f.heap f.attached owner f.newest tgt)
    (hs' : Stacks h' f.attached owner word' tgt') (hdel : h'.isDeleted = f.heap.isDeleted)
    (hf' : f'.heap = h' ∧ f'.attached = f.attached ∧ f'.newest = word') : Contents f' j l := by
  obtain ⟨rfl, hatt, rfl⟩ := hf'
  rw [← hatt] at hs'
  rw [contents_iff hs', (contents_iff hs).mp h]
  unfold entries
  rw [hatt, hdel]

/-- An access of a call that attaches and deletes nothing. -/
theorem Contents.quiet {place : Fin n → Place T} {t : Fin n} {c : Call T} (h : Contents f j l)
    (hf : FamilyInv f owner tgt place) (hc : place t = .call c)
    (hq : Quiet (f.mem i) (deleted c) c.op ((f.mem i).step c)) :
    Contents (f.setMem i ((f.mem i).step c).1) j l := by
  have hok := hf.ok t
  rw [hc] at hok
  obtain ⟨owner', tgt', hattaches, hmoved⟩ := step_steps (m := f.mem i) (i := i) hf.words rfl hok
    fun x hx => hf.held t x (by rw [hc]; exact hx)
  have hstacks := hmoved.words
  have hatt : ((f.mem i).step c).1.attached = f.attached := hq.attached
  have howner : owner' = owner := by
    change Attaches f.attached owner i _ ((f.mem i).step c).1.attached owner' at hattaches
    generalize ((f.mem i).step c).1.attached = att' at hattaches hatt
    cases hattaches with
    | none => rfl
    | entry e he => exact absurd (congrArg List.length hatt) (Nat.succ_ne_self _)
  rw [howner, hatt] at hstacks
  exact h.write hf.words hstacks hq.isDeleted ⟨rfl, hatt, rfl⟩

/-- An entry of the stack `owner x` is deleted. -/
theorem contents_delete {x : Addr} {g : Family T ι}
    (hs : Stacks f.heap f.attached owner f.newest tgt)
    (hx : x ∈ f.attached) (hlive : f.heap.isDeleted x = false)
    (hf' : g.heap = (f.heap.deleteSelf x).1 ∧ g.attached = f.attached ∧ g.newest = f.newest)
    (h : Contents f j l) : Contents g j (l.erase x) := by
  obtain ⟨hheap, hatt, hnewest⟩ := hf'
  have hs' := hs.kill hx hlive
  rw [← hheap, ← hatt, ← hnewest] at hs'
  rw [contents_iff hs', (contents_iff hs).mp h, hheap, hatt]
  exact (entries_kill hs hx hlive j).symm

/-- An access of a call that does not attach an entry. -/
theorem Contents.access {place : Fin n → Place T} {t : Fin n} {c : Call T} (h : Contents f j l)
    (hf : FamilyInv f owner tgt place) (hc : place t = .call c)
    (hnot : ∀ p e, c ≠ .attach p e (f.newest i)) :
    ∃ l', Contents (f.setMem i ((f.mem i).step c).1) j l' ∧ l' ⊆ l := by
  have hok := hf.ok t
  rw [hc] at hok
  have heffect := step_effect (m := f.mem i) hf.words hok
    fun x hx => hf.held t x (by rw [hc]; exact hx)
  generalize hr : (f.mem i).step c = r at heffect
  cases heffect with
  | attach p e hp => exact absurd hp (hnot p e)
  | delete cond x hx hlive =>
    subst hx
    have hatt : x ∈ f.attached := hok
    have hnewest : Function.update f.newest i (f.newest i) = f.newest := Function.update_eq_self ..
    exact ⟨_, contents_delete hf.words hatt hlive ⟨rfl, rfl, hnewest⟩ h, List.erase_subset⟩
  | quiet hq =>
    rw [← hr] at hq ⊢
    exact ⟨l, h.quiet hf hc hq, List.Subset.refl l⟩

end contents

section step

variable {w w' : World T n} {a : Action T n} {j : Nat} {l : List Addr}

/-- What an action can do. -/
inductive Stepped (w : World T n) : Action T n → World T n → Prop where
  | create : Stepped w .create { w with count := w.count + 1 }
  | invoke (t : Fin n) (op : Op T) (pc : Pc T) (hpc : w.pc t = .idle) (hop : w.entry op = some pc) :
      Stepped w (.thread t (.invoke op))
        (World.goto { w with history := w.history ++ [.invoke t op] } t pc)
  | call (t : Fin n) (i : Nat) (c : Call T) (hpc : w.pc t = .call i c) :
      Stepped w (.thread t .proceed) (w.called t i c.op ((w.family.mem i).step c))
  | popAll (t : Fin n) (i : Nat) (hpc : w.pc t = .popAll i) :
      Stepped w (.thread t .proceed) (World.goto
        ⟨w.family.popAll i w.count, w.count + 1, w.pc,
          w.history ++ [.result t (.popAll i) (.stack w.count)]⟩ t .idle)
  | dropping (t : Fin n) (c : NextPtr) (pc : Pc T) (hpc : w.pc t = .drop c)
      (hpc' : ∀ i, stackOf pc ≠ some i) :
      Stepped w (.thread t .proceed) (World.goto
        { w with family := { w.family with heap := (c.step w.family.heap).1 } } t pc)
  | drop (t : Fin n) (x y : Addr) (hpc : w.pc t = .idle) :
      Stepped w (.thread t (.drop x)) (w.goto t (.drop (.start y)))
  | release (x : Addr) (hx : w.unowned x = true) :
      Stepped w (.release x)
        { w with family := { w.family with heap := w.family.heap.release x } }

theorem stepped (hw : w.step a = some w') : Stepped w a w' := by
  unfold World.step at hw
  split at hw
  · cases hw
    exact .create
  · rename_i t op
    split at hw
    · rename_i pc hpc hop
      cases hw
      exact .invoke t op pc hpc hop
    · cases hw
  · rename_i t
    unfold World.proceed at hw
    cases hpc : w.pc t with
    | idle =>
      rw [hpc] at hw
      cases hw
    | call i c =>
      rw [hpc] at hw
      cases hw
      exact .call t i c hpc
    | popAll i =>
      rw [hpc] at hw
      cases hw
      exact .popAll t i hpc
    | drop c =>
      rw [hpc] at hw
      simp only at hw
      split at hw
      · cases hw
        exact .dropping t c _ hpc nofun
      · cases hw
        exact .dropping t c _ hpc nofun
  · rename_i t x
    split at hw
    · rename_i y hpc _ _
      cases hw
      exact .drop t x y hpc
    · cases hw
  · rename_i x
    split at hw
    · rename_i hx
      cases hw
      exact .release x hx
    · cases hw

/-- The stack that an access works on. -/
def worksOn (w : World T n) : Action T n → Option Nat
  | .thread t .proceed => stackOf (w.pc t)
  | _ => none

/-- A `pop_if` does not delete an entry that has left its stack. -/
def Hands (w : World T n) : Action T n → Prop
  | .thread t .proceed => ∀ i cond x l, w.pc t = .call i (.popDelete cond x) →
      w.family.heap.isDeleted x = false → Contents w.family i l → x ∈ l
  | _ => True

theorem called_family (t : Fin n) (i : Nat) (op : Stack.Op T)
    (r : Mem T × Outcome (Call T) Stack.Res) :
    (w.called t i op r).family = w.family.setMem i r.1 ∧ (w.called t i op r).count = w.count := by
  obtain ⟨m, out⟩ := r
  cases out <;> exact ⟨rfl, rfl⟩

/-- No stack is destroyed. -/
theorem count_le (hw : w.step a = some w') : w.count ≤ w'.count := by
  cases stepped hw with
  | create | popAll => exact Nat.le_succ _
  | invoke | dropping | drop | release => exact Nat.le_refl _
  | call t i c hpc => exact Nat.le_of_eq (called_family t i c.op _).2.symm

/-- A step that works on another stack. -/
theorem contents_step (h : Inv w) (hw : w.step a = some w') (ha : Hands w a) (hj : j < w.count)
    (hne : worksOn w a ≠ some j) (hl : Contents w.family j l) : Contents w'.family j l := by
  obtain ⟨owner, tgt, hf⟩ := h.family
  cases stepped hw with
  | create | invoke | drop => exact hl
  | release x hx => exact hl.congr rfl rfl
  | popAll t i hpc =>
    have hji : j ≠ i := fun hc => hne (by rw [worksOn, hpc, hc]; rfl)
    refine hl.congr rfl ?_
    show Function.update (Function.update w.family.newest w.count _) i none j = _
    rw [Function.update_of_ne hji, Function.update_of_ne (Nat.ne_of_lt hj)]
  | dropping t c pc hpc hpc' =>
    have hplace : (placeOf ∘ w.pc) t = .drop c := congrArg placeOf hpc
    have hclean := hf.drop_cleans hplace
    exact hl.write hf.words (hf.words.clean hclean) hclean.isDeleted_eq ⟨rfl, rfl, rfl⟩
  | call t i c hpc =>
    have hji : j ≠ i := fun hc => hne (by rw [worksOn, hpc, hc]; rfl)
    have hplace : (placeOf ∘ w.pc) t = .call c := congrArg placeOf hpc
    have hok := hf.ok t
    rw [hplace] at hok
    have heffect := step_effect (m := w.family.mem i) hf.words hok
      fun x hx => hf.held t x (by rw [hplace]; exact hx)
    rw [(called_family t i c.op _).1]
    generalize hr : (w.family.mem i).step c = r at heffect
    cases heffect with
    | attach p e hc => exact hl.congr rfl (Function.update_of_ne hji ..)
    | delete cond x hc hlive =>
      subst hc
      have hnewest : Function.update w.family.newest i (w.family.newest i) = w.family.newest :=
        Function.update_eq_self ..
      have hdel := contents_delete hf.words (show x ∈ w.family.attached from hok) hlive
        (g := w.family.setMem i { w.family.mem i with heap := (w.family.heap.deleteSelf x).1 })
        ⟨rfl, rfl, hnewest⟩ hl
      -- The entry belongs to the stack `i`.
      have hmem := ha i cond x _ hpc hlive ((contents_iff hf.words).mpr rfl)
      have howner : owner x = i := (mem_entries.mp hmem).2.2
      have hnot : x ∉ l := by
        rw [(contents_iff hf.words).mp hl]
        exact fun hc => hji ((mem_entries.mp hc).2.2.symm.trans howner)
      rw [List.erase_of_not_mem hnot] at hdel
      exact hdel
    | quiet hq =>
      rw [← hr] at hq ⊢
      exact hl.quiet hf hplace hq

/-- Only a `pop_if` that deletes an entry of another stack changes the contents of a stack that it
does not work on. -/
theorem step_iff (h : Inv w) (hw : w.step a = some w') :
    (∀ j, j < w.count → worksOn w a ≠ some j →
      ∀ l, Contents w.family j l → Contents w'.family j l) ↔ Hands w a := by
  refine ⟨fun hkeep => ?_, fun ha j hj hne l hl => contents_step h hw ha hj hne hl⟩
  obtain ⟨owner, tgt, hf⟩ := h.family
  cases stepped hw with
  | create | invoke | drop | release => exact trivial
  | popAll t i hpc | dropping t c pc hpc =>
    intro i cond x l hpc'
    rw [hpc] at hpc'
    cases hpc'
  | call t i c hpc =>
    intro i' cond x l hpc' hlive hl
    rw [hpc] at hpc'
    cases hpc'
    have hplace : (placeOf ∘ w.pc) t = .call (.popDelete cond x) := congrArg placeOf hpc
    have hok := hf.ok t
    rw [hplace] at hok
    have hx : x ∈ w.family.attached := hok
    rw [(contents_iff hf.words).mp hl]
    by_contra hnot
    have howner : owner x ≠ i := fun hc => hnot (mem_entries.mpr ⟨hx, hlive, hc⟩)
    have hmem : x ∈ entries w.family.heap w.family.attached owner (owner x) :=
      mem_entries.mpr ⟨hx, hlive, rfl⟩
    -- The stack of the entry exists.
    have hcount : owner x < w.count := by
      by_contra hge
      rw [entries_nil hf.words (h.fresh _ (Nat.le_of_not_lt hge))] at hmem
      cases hmem
    have hne : worksOn w (.thread t .proceed) ≠ some (owner x) := by
      rw [worksOn, hpc]
      exact fun hc => howner (Option.some.inj hc).symm
    have hsame := hkeep _ hcount hne _ ((contents_iff hf.words).mpr rfl)
    have hfamily : (w.called t i (Call.op (.popDelete cond x))
        ((w.family.mem i).step (.popDelete cond x))).family =
        w.family.setMem i { w.family.mem i with heap := (w.family.heap.deleteSelf x).1 } := by
      rw [(called_family t i _ _).1]
      simp only [Mem.step, Family.mem, deleteSelf_eq hlive]
    rw [hfamily] at hsame
    have herase := contents_delete hf.words hx hlive
      (g := w.family.setMem i { w.family.mem i with heap := (w.family.heap.deleteSelf x).1 })
      ⟨rfl, rfl, Function.update_eq_self ..⟩ ((contents_iff (i := owner x) hf.words).mpr rfl)
    obtain ⟨chain, hlinked, hchain⟩ := hsame
    obtain ⟨chain', hlinked', hchain'⟩ := herase
    rw [hlinked.unique hlinked', ← hchain'] at hchain
    rw [hchain] at hmem
    exact absurd hmem (hf.words.nodup_entries _).not_mem_erase

end step

section sole

variable {m : Mem T} {c : Call T}

/-- What a call knows that is the only one on its stack. -/
def Sole (m : Mem T) : Call T → Prop
  | .loadNewest _ => True
  | .cleanDeleted _ x | .cleanNext _ x _ | .cleanExchange _ x _ => m.newest = some x
  | .swapLink _ _ newest | .attach _ _ newest => m.newest = newest
  | .popGetShared _ x | .popDeleted _ x | .popDelete _ x =>
    m.newest = some x ∧ m.heap.isDeleted x = false

theorem Solo.sole {tgt : Addr → Option Addr} (h : Solo m tgt c) : Sole m c := by
  cases c with
  | loadNewest | cleanDeleted | swapLink | attach | popGetShared | popDeleted | popDelete => exact h
  | cleanNext | cleanExchange => exact h.1

/-- What remains known after an access. -/
def SoleAfter (r : Mem T × Outcome (Call T) Stack.Res) : Prop :=
  match r.2 with
  | .running c => Sole r.1 c
  | .done res => Looked r.1 res

theorem SoloAfter.sole {was : Bool} {b : Nat} {r : Mem T × Outcome (Call T) Stack.Res}
    (h : SoloAfter was b r) : SoleAfter r := by
  obtain ⟨m', out⟩ := r
  cases out with
  | running c => exact ((h.running c rfl).1 fun _ => none).sole
  | done res => exact h.looked res rfl

/-- One access of a call that is the only one on its stack. -/
theorem Sole.step (h : Sole m c) (hrel : ∀ x, m.newest = some x → m.heap.released x = false) :
    SoleAfter (m.step c) := by
  have hsolo : ∀ c, (∀ k x call, c ≠ .cleanNext k x call) → Solo m (fun _ => none) c →
      SoleAfter (m.step c) := fun c hs hc => (step_solo hs hc hrel).choose_spec.1.sole
  cases c with
  | cleanNext k x call =>
    simp only [Mem.step]
    unfold Mem.cleanNext
    split
    · exact h
    · exact h
  | cleanExchange k x next =>
    simp only [Mem.step]
    rw [if_pos (show m.newest = some x from h)]
    exact (cleanup_solo (m := { m with newest := next }) rfl).sole
  | loadNewest | cleanDeleted | swapLink | attach | popGetShared | popDeleted | popDelete =>
    exact hsolo _ (by simp) h

end sole

section owned

variable {w w' w₀ w₁ w₂ w₃ : World T n} {a : Action T n} {u : Fin n} {j : Nat} {l : List Addr}
  {op : Stack.Op T} {o : Option Addr}

/-- The instances of the attached entries. -/
def Valued (f : Family T Nat) : Prop := ∀ x ∈ f.attached, (f.heap.value x).isSome = true

theorem valued_step (h : Inv w) (hv : Valued w.family) (hw : w.step a = some w') :
    Valued w'.family := by
  obtain ⟨owner, tgt, hf⟩ := h.family
  cases stepped hw with
  | create | invoke | drop | release | popAll => exact hv
  | dropping t c pc hpc hpc' =>
    have hclean := hf.drop_cleans (show (placeOf ∘ w.pc) t = .drop c from congrArg placeOf hpc)
    intro x hx
    show ((c.step w.family.heap).1.value x).isSome = true
    rw [hclean.fields.1]
    exact hv x hx
  | call t i c hpc =>
    have hplace : (placeOf ∘ w.pc) t = .call c := congrArg placeOf hpc
    obtain ⟨p, hp⟩ : ∃ p, Goes p ((w.family.mem i).step c).2 := by
      cases ((w.family.mem i).step c).2 with
      | running c' => exact ⟨_, rfl⟩
      | done res => exact ⟨_, .none⟩
    have hafter := hf.callAfter hplace i hp
    have hvalue := hafter.value
    have hentry := hafter.entry
    have heffect := hafter.effect
    rw [(called_family t i c.op _).1]
    generalize (w.family.mem i).step c = r at heffect hvalue hentry
    cases heffect with
    | attach p e hc =>
      intro x hx
      rcases List.mem_cons.mp hx with rfl | hx
      · exact Option.isSome_of_mem (hentry p x hc).2
      · exact hv x hx
    | delete cond x hc hlive =>
      exact fun y hy => (congrArg Option.isSome (hvalue y hy)).trans (hv y hy)
    | quiet hq =>
      intro x hx
      change x ∈ r.1.attached at hx
      rw [hq.attached] at hx
      exact (congrArg Option.isSome (hvalue x hx)).trans (hv x hx)

/-- Only the thread `u` begins an operation on the stack `j`, and only `op`. -/
def Uses (u : Fin n) (j : Nat) (op : Stack.Op T) : Action T n → Prop
  | .thread t (.invoke (.call i op')) => i = j → t = u ∧ op' = op
  | .thread _ (.invoke (.popAll i)) => i ≠ j
  | _ => True

/-- No operation on the stack `j` begins. -/
def Rests (j : Nat) : Action T n → Prop
  | .thread _ (.invoke (.call i _)) | .thread _ (.invoke (.popAll i)) => i ≠ j
  | _ => True

theorem Rests.uses (h : Rests j a) : Uses u j op a := by
  unfold Rests at h
  unfold Uses
  split at h
  · exact fun hc => absurd hc h
  · exact h
  · trivial

/-- The entry that `newest` refers to is the first one, unless it is deleted. -/
theorem Contents.head_eq {f : Family T Nat} (h : Contents f j l)
    (hlive : ∀ x, f.newest j = some x → f.heap.isDeleted x = false) : l.head? = f.newest j := by
  obtain ⟨chain, hlinked, rfl⟩ := h
  cases chain with
  | nil => exact (show f.newest j = none from hlinked).symm
  | cons x chain =>
    rw [hlinked.1, List.filter_cons_of_pos (by rw [hlive x hlinked.1]; rfl)]
    rfl

/-- The thread `u` is the only one that works on the stack `j`, and only with `op`. The stack holds
`l`, or the operation has deleted the first one of these entries. -/
structure Owned (w : World T n) (u : Fin n) (j : Nat) (l : List Addr) (op : Stack.Op T) : Prop where
  inv : Inv w
  valued : Valued w.family
  exist : j < w.count
  only : ∀ t, stackOf (w.pc t) = some j → t = u ∧ ∃ c, w.pc t = .call j c ∧ c.op = op
  holds : ∀ c, w.pc u = .call j c → (∃ x, deleted c = some x ∧ l.head? = some x) ∨
    deleted c = none ∧ Sole (w.family.mem j) c ∧ Contents w.family j l

/-- Before the thread begins. -/
theorem Owned.of_free (h : Inv w) (hv : Valued w.family) (hj : j < w.count)
    (hfree : ∀ t, stackOf (w.pc t) ≠ some j) : Owned w u j l op where
  inv := h
  valued := hv
  exist := hj
  only t ht := absurd ht (hfree t)
  holds c hc := absurd (by rw [hc]; rfl) (hfree u)

theorem Sole.foreign {m m' : Mem T} {c : Call T} (h : Sole m c) (hnewest : m'.newest = m.newest)
    (hlive : ∀ x, m.newest = some x → m.heap.isDeleted x = false → m'.heap.isDeleted x = false) :
    Sole m' c := by
  cases c with
  | loadNewest => trivial
  | cleanDeleted | cleanNext | cleanExchange | swapLink | attach => exact hnewest.trans h
  | popGetShared cond x | popDeleted cond x | popDelete cond x =>
    exact ⟨hnewest.trans h.1, hlive x h.1 h.2⟩

/-- A step that does not work on the stack `j`. -/
theorem Owned.foreign (h : Owned w u j l op) (hw : w.step a = some w') (ha : Hands w a)
    (hne : worksOn w a ≠ some j) (hcount : w.count ≤ w'.count)
    (hnewest : w'.family.newest j = w.family.newest j)
    (hpc : ∀ t, stackOf (w'.pc t) = some j → w'.pc t = w.pc t) : Owned w' u j l op where
  inv := inv_step h.inv hw
  valued := valued_step h.inv h.valued hw
  exist := Nat.lt_of_lt_of_le h.exist hcount
  only t ht := by
    have hsame := hpc t ht
    rw [hsame] at ht ⊢
    exact h.only t ht
  holds c hc := by
    have hc₀ : w.pc u = .call j c := by
      rw [← hpc u (by rw [hc]; rfl)]
      exact hc
    rcases h.holds c hc₀ with hdel | ⟨hnone, hsole, hl⟩
    · exact .inl hdel
    · have hl' := contents_step h.inv hw ha h.exist hne hl
      refine .inr ⟨hnone, hsole.foreign hnewest fun x hx hlive => ?_, hl'⟩
      -- The entry is still in the stack.
      obtain ⟨chain, hlinked, rfl⟩ := hl
      obtain ⟨chain', -, hchain⟩ := hl'
      have hmem : x ∈ chain.filter fun x => !w.family.heap.isDeleted x := by
        have hhead : chain.head? = some x := hlinked.head_eq.symm.trans hx
        have hlive' : w.family.heap.isDeleted x = false := hlive
        exact List.mem_filter.mpr ⟨List.mem_of_mem_head? hhead, by rw [hlive']; rfl⟩
      rw [hchain] at hmem
      exact (Bool.not_eq_true' _).mp (List.mem_filter.mp hmem).2

/-- An access of the operation on the stack `j`. -/
theorem Owned.access (h : Owned w u j l op) (hw : w.step (.thread u .proceed) = some w')
    (hon : stackOf (w.pc u) = some j) : Owned w' u j l op := by
  obtain ⟨-, c, hpc, hop⟩ := h.only u hon
  have hinv := inv_step h.inv hw
  have hvalued := valued_step h.inv h.valued hw
  obtain ⟨owner, tgt, hf⟩ := h.inv.family
  have hplace : (placeOf ∘ w.pc) u = .call c := congrArg placeOf hpc
  have hok := hf.ok u
  rw [hplace] at hok
  have heffect := step_effect (m := w.family.mem j) hf.words hok
    fun x hx => hf.held u x (by rw [hplace]; exact hx)
  have hsole : Sole (w.family.mem j) c → SoleAfter ((w.family.mem j).step c) :=
    fun hs => hs.step fun x hx => (hf.words.roots j x hx).2
  have hquiet := fun hl : Contents w.family j l => hl.quiet (i := j) hf hplace
  have hw' : w' = w.called u j c.op ((w.family.mem j).step c) := by
    unfold World.step World.proceed at hw
    simp only [hpc] at hw
    exact (Option.some.inj hw).symm
  have hcount : j < w'.count := by
    rw [hw', (called_family u j _ _).2]
    exact h.exist
  generalize (w.family.mem j).step c = r at heffect hsole hquiet hw'
  obtain ⟨m', out⟩ := r
  cases out with
  | done res =>
    refine ⟨hinv, hvalued, hcount, fun t ht => ?_, fun c' hc' => ?_⟩
    · rw [hw'] at ht
      change stackOf (Function.update w.pc u .idle t) = some j at ht
      by_cases htu : t = u
      · rw [htu, Function.update_self] at ht
        cases ht
      · rw [Function.update_of_ne htu] at ht
        exact absurd (h.only t ht).1 htu
    · rw [hw'] at hc'
      change Function.update w.pc u .idle u = _ at hc'
      rw [Function.update_self] at hc'
      cases hc'
  | running c' =>
    have hc' : w'.pc u = .call j c' := by
      rw [hw']
      exact Function.update_self ..
    have hheld : c'.op = c.op ∧ ((∃ x, deleted c' = some x ∧ l.head? = some x) ∨
        deleted c' = none ∧ Sole m' c' ∧ Contents (w.family.setMem j m') j l) := by
      rcases heffect with _ | ⟨cond, x, hc, hlive⟩ | hq
      · subst hc
        refine ⟨rfl, .inl ⟨x, rfl, ?_⟩⟩
        -- It has read the entry in `newest`.
        rcases h.holds _ hpc with ⟨y, hy, -⟩ | ⟨-, hs, hl⟩
        · cases hy
        · rw [hl.head_eq fun y hy => ?_]
          · exact hs.1
          · have hxy : x = y := Option.some.inj (hs.1.symm.trans hy)
            exact hxy ▸ hlive
      · obtain ⟨hdel, hop'⟩ := hq.running c' rfl
        refine ⟨hop', ?_⟩
        rcases h.holds c hpc with ⟨x, hx, hhead⟩ | ⟨hnone, hs, hl⟩
        · exact .inl ⟨x, hdel.trans hx, hhead⟩
        · exact .inr ⟨hdel.trans hnone, hsole hs, hquiet hl hq⟩
    refine ⟨hinv, hvalued, hcount, fun t ht => ?_, fun d hd => ?_⟩
    · by_cases htu : t = u
      · rw [htu]
        exact ⟨rfl, c', hc', hheld.1.trans hop⟩
      · rw [hw'] at ht
        change stackOf (Function.update w.pc u _ t) = some j at ht
        rw [Function.update_of_ne htu] at ht
        exact absurd (h.only t ht).1 htu
    · rw [hc'] at hd
      cases hd
      rw [hw']
      show _ ∨ _ ∧ Sole ((w.family.setMem j m').mem j) c' ∧ Contents (w.family.setMem j m') j l
      rw [mem_setMem]
      exact hheld.2

/-- One step. An operation on the stack `j` can begin when the stack holds `l`. -/
theorem Owned.step (h : Owned w u j l op) (hw : w.step a = some w') (ha : Hands w a)
    (huses : Uses u j op a) (hl : Rests j a ∨ Contents w.family j l) : Owned w' u j l op := by
  by_cases hon : worksOn w a = some j
  · cases stepped hw with
    | create | invoke | drop | release => cases hon
    | call t i c hpc | popAll t i hpc | dropping t c pc hpc =>
      obtain ⟨rfl, -⟩ := h.only t hon
      exact h.access hw hon
  have hother : ∀ {t : Fin n} {pc : Pc T}, stackOf pc ≠ some j → ∀ s,
      stackOf (Function.update w.pc t pc s) = some j → Function.update w.pc t pc s = w.pc s := by
    intro t pc hpc s hs
    by_cases hst : s = t
    · rw [hst, Function.update_self] at hs
      exact absurd hs hpc
    · exact Function.update_of_ne hst ..
  cases stepped hw with
  | create => exact h.foreign hw ha hon (Nat.le_succ _) rfl fun _ _ => rfl
  | release x => exact h.foreign hw ha hon (Nat.le_refl _) rfl fun _ _ => rfl
  | drop t x y hpc => exact h.foreign hw ha hon (Nat.le_refl _) rfl (hother nofun)
  | dropping t c pc hpc hpc' => exact h.foreign hw ha hon (Nat.le_refl _) rfl (hother (hpc' j))
  | popAll t i hpc =>
    have hji : j ≠ i := fun hc => hon (by rw [worksOn, hpc, hc]; rfl)
    refine h.foreign hw ha hon (Nat.le_succ _) ?_ (hother nofun)
    show Function.update (Function.update w.family.newest w.count _) i none j = _
    rw [Function.update_of_ne hji, Function.update_of_ne (Nat.ne_of_lt h.exist)]
  | call t i c hpc =>
    have hji : j ≠ i := fun hc => hon (by rw [worksOn, hpc, hc]; rfl)
    have hcount := (called_family (w := w) t i c.op ((w.family.mem i).step c)).2
    refine h.foreign hw ha hon (Nat.le_of_eq hcount.symm) ?_ ?_
    · rw [(called_family t i c.op _).1]
      exact Function.update_of_ne hji ..
    · generalize (w.family.mem i).step c = r
      obtain ⟨m', out⟩ := r
      cases out with
      | running c' => exact hother fun hc => hji (Option.some.inj hc).symm
      | done res => exact hother nofun
  | invoke t op' pc hpc hop' =>
    by_cases hj : stackOf pc = some j
    · -- The operation begins.
      have hbegin : t = u ∧ op' = .call j op ∧ pc = .call j (.start op) := by
        unfold World.entry at hop'
        split at hop'
        · split at hop'
          · cases hop'
            cases hj
            obtain ⟨rfl, rfl⟩ := huses rfl
            exact ⟨rfl, rfl, rfl⟩
          · cases hop'
        · split at hop'
          · cases hop'
            exact absurd (Option.some.inj hj) huses
          · cases hop'
      obtain ⟨rfl, rfl, rfl⟩ := hbegin
      have hcontents := hl.resolve_left fun hrests => hrests rfl
      refine ⟨inv_step h.inv hw, h.valued, h.exist, fun s hs => ?_, fun c hc => ?_⟩
      · change stackOf (Function.update w.pc t _ s) = some j at hs
        by_cases hst : s = t
        · subst hst
          refine ⟨rfl, .start op, Function.update_self .., ?_⟩
          cases op <;> rfl
        · rw [Function.update_of_ne hst] at hs
          exact absurd (h.only s hs).1 hst
      · change Function.update w.pc t _ t = _ at hc
        rw [Function.update_self] at hc
        cases hc
        refine .inr ⟨deleted_start op, ?_, hcontents⟩
        cases op <;> trivial
    · exact h.foreign hw ha hon (Nat.le_refl _) rfl (hother hj)

/-- `peek` deletes nothing. -/
theorem Owned.peeks (h : Owned w u j l .peek) (hl : Contents w.family j l)
    (hw : w.step a = some w') (ha : Hands w a) : Contents w'.family j l := by
  by_cases hon : worksOn w a = some j
  · cases stepped hw with
    | create | invoke | drop | release => cases hon
    | popAll t i hpc =>
      obtain ⟨-, c, hc, -⟩ := h.only t hon
      rw [hpc] at hc
      cases hc
    | dropping t c pc hpc =>
      rw [worksOn, hpc] at hon
      cases hon
    | call t i c hpc =>
      obtain ⟨-, c', hc', hop⟩ := h.only t hon
      rw [hpc] at hc'
      cases hc'
      obtain ⟨owner, tgt, hf⟩ := h.inv.family
      have hplace : (placeOf ∘ w.pc) t = .call c := congrArg placeOf hpc
      have hok := hf.ok t
      rw [hplace] at hok
      have heffect := step_effect (m := w.family.mem j) hf.words hok
        fun x hx => hf.held t x (by rw [hplace]; exact hx)
      rw [(called_family t j c.op _).1]
      exact hl.quiet hf hplace (heffect.quiet_of (.inl hop))
  · exact contents_step h.inv hw ha h.exist hon hl

/-- The thread returns from the operation on the stack `j`. -/
def Answers (w w' : World T n) (u : Fin n) (j : Nat) (op : Stack.Op T) (res : Stack.Res) : Prop :=
  w.step (.thread u .proceed) = some w' ∧
    w'.history = w.history ++ [.result u (.call j op) (.call res)]

/-- What it answers. -/
theorem Owned.answer {op' : Stack.Op T} {res : Stack.Res} (h : Owned w u j l op)
    (hans : Answers w w' u j op' res) :
    (op' = .peek → res = .peeked l.head?) ∧ (op' = .pop → res = .popped l.head?) := by
  obtain ⟨hw, hhist⟩ := hans
  have hself : ∀ {e : Linearize.Event (Fin n) (Op T) Res}, w.history ≠ w.history ++ [e] :=
    fun hc => absurd (congrArg List.length hc) (by simp)
  cases hst : stepped hw with
  | popAll t i hpc => cases List.append_cancel_left hhist
  | dropping t c pc hpc => exact absurd hhist hself
  | call t i c hpc =>
    have hinv' := inv_step h.inv hw
    have hvalued := valued_step h.inv h.valued hw
    obtain ⟨owner, tgt, hf⟩ := h.inv.family
    have hplace : (placeOf ∘ w.pc) u = .call c := congrArg placeOf hpc
    have hok := hf.ok u
    rw [hplace] at hok
    have heffect := step_effect (m := w.family.mem i) hf.words hok
      fun x hx => hf.held u x (by rw [hplace]; exact hx)
    have hsole : Sole (w.family.mem i) c → SoleAfter ((w.family.mem i).step c) :=
      fun hs => hs.step fun x hx => (hf.words.roots i x hx).2
    have hquiet := fun hl : Contents w.family i l => hl.quiet (i := i) hf hplace
    generalize (w.family.mem i).step c = r at heffect hsole hquiet hhist hvalued
    obtain ⟨m', out⟩ := r
    cases out with
    | running c' => exact absurd hhist hself
    | done res' =>
      obtain ⟨hev⟩ := List.cons.inj (List.append_cancel_left hhist)
      injection hev with _ hcall hres
      injection hcall with hij hop'
      injection hres with hres
      subst hij hop' hres
      rcases heffect with ⟨p, e, hc⟩ | _ | hq
      · subst hc
        exact ⟨nofun, nofun⟩
      · have hans := hq.done res' rfl
        -- What `newest` says of the contents.
        have hhead : Sole (w.family.mem i) c → Contents w.family i l →
            (∀ x, m'.newest = some x → m'.heap.isDeleted x = false) → l.head? = m'.newest := by
          intro hs hl hlive
          have hl' := hquiet hl hq
          have hword : (w.family.setMem i m').newest i = m'.newest := Function.update_self ..
          rw [← hword] at hlive ⊢
          exact hl'.head_eq hlive
        have hheld := h.holds c hpc
        constructor
        · intro hop
          rw [hop] at hans
          obtain ⟨o, rfl⟩ := hans.of_peek
          rcases hheld with ⟨x, hx, -⟩ | ⟨-, hs, hl⟩
          · obtain ⟨⟨cond, hc⟩, -⟩ := deleted_op hx
            rw [hop] at hc
            cases hc
          · obtain ⟨hnewest, hlive⟩ : Looked m' (.peeked o) := hsole hs
            rw [hhead hs hl fun x hx => hlive x (hnewest.symm.trans hx), hnewest]
        · intro hop
          rw [hop] at hans
          cases res' with
          | pushed e => exact hans.elim
          | rejected =>
            obtain ⟨_, _, _, hc, -⟩ := hans
            cases hc
          | peeked o =>
            cases o with
            | none => cases hans.1
            | some x => cases hans.1
          | empty b => cases hans
          | refused e =>
            -- The condition of `pop` always holds.
            obtain ⟨cond, hc, hatt, hcond⟩ := hans
            cases hc
            have hsome := hvalued e hatt
            obtain ⟨v, hv⟩ := Option.isSome_iff_exists.mp hsome
            change m'.heap.value e = some v at hv
            rw [hv] at hcond
            cases hcond
          | popped o =>
            cases o with
            | none =>
              obtain ⟨cond, -, hnone, hnewest⟩ := hans
              rcases hheld with ⟨x, hx, -⟩ | ⟨-, hs, hl⟩
              · rw [hnone] at hx
                cases hx
              · rw [hhead hs hl fun x hx => (by rw [hnewest] at hx; cases hx), hnewest]
            | some e =>
              obtain ⟨cond, -, hdel⟩ := hans
              rcases hheld with ⟨x, hx, hhead⟩ | ⟨hnone, -⟩
              · rw [hdel] at hx
                cases hx
                rw [hhead]
              · rw [hdel] at hnone
                cases hnone

/-- In every run in which no `pop_if` deletes an entry that has left its stack, a stack, for example
one that `pop_all` has returned, keeps its contents until an operation works on it. When one thread
is the only one to use the stack, all its calls of `peek` and the next `pop` answer with the first
entry. A step that keeps the contents of all stacks that it does not work on is one that meets the
condition. -/
theorem popAll_hands_over {P : World T n → Action T n → Prop}
    (h : Run World.step P World.init w₀) :
    (∀ a w', w₀.step a = some w' → ((∀ j, j < w₀.count → worksOn w₀ a ≠ some j →
      ∀ l, Contents w₀.family j l → Contents w'.family j l) ↔ Hands w₀ a)) ∧
    ∀ j l, j < w₀.count → Contents w₀.family j l →
      (∀ w₁, Run World.step (fun w a => Hands w a ∧ worksOn w a ≠ some j) w₀ w₁ →
        Contents w₁.family j l) ∧
      ∀ u w₁, (∀ t, stackOf (w₀.pc t) ≠ some j) →
        Run World.step (fun w a => Hands w a ∧ Uses u j .peek a) w₀ w₁ →
        (∀ w' res, Answers w₁ w' u j .peek res → res = .peeked l.head?) ∧
        ((∀ t, stackOf (w₁.pc t) ≠ some j) →
          ∀ w₂ w₃ w' res, w₁.step (.thread u (.invoke (.call j .pop))) = some w₂ →
            Run World.step (fun w a => Hands w a ∧ Rests j a) w₂ w₃ →
            Answers w₃ w' u j .pop res → res = .popped l.head?) := by
  have hinv := inv_of_run h
  have hvalued : Valued w₀.family :=
    (h.invariant (fun w => Inv w ∧ Valued w.family) ⟨inv_init, nofun⟩
      fun _ _ _ hi _ hs => ⟨inv_step hi.1 hs, valued_step hi.1 hi.2 hs⟩).2
  refine ⟨fun a w' hs => step_iff hinv hs, fun j l hj hl => ⟨fun w₁ hrun => ?_, ?_⟩⟩
  · have hkept := hrun.invariant (fun w => Inv w ∧ j < w.count ∧ Contents w.family j l)
      ⟨hinv, hj, hl⟩ fun x a x' hx hp hs =>
        ⟨inv_step hx.1 hs, Nat.lt_of_lt_of_le hx.2.1 (count_le hs),
          contents_step hx.1 hs hp.1 hx.2.1 hp.2 hx.2.2⟩
    exact hkept.2.2
  · intro u w₁ hfree hrun
    obtain ⟨hown, hl₁⟩ := hrun.invariant (fun w => Owned w u j l .peek ∧ Contents w.family j l)
      ⟨.of_free hinv hvalued hj hfree, hl⟩ fun x a x' hx hp hs =>
        ⟨hx.1.step hs hp.1 hp.2 (.inr hx.2), hx.1.peeks hx.2 hs hp.1⟩
    refine ⟨fun w' res hans => (hown.answer hans).1 rfl, ?_⟩
    intro hfree₁ w₂ w₃ w' res hs hrun₂ hans
    have hown₁ : Owned w₁ u j l .pop := .of_free hown.inv hown.valued hown.exist hfree₁
    have hown₂ := hown₁.step hs trivial (fun _ => ⟨rfl, rfl⟩) (.inr hl₁)
    have hown₃ := hrun₂.invariant (fun w => Owned w u j l .pop) hown₂ fun x a x' hx hp hs =>
      hx.step hs hp.1 hp.2.uses (.inl hp.2)
    exact (hown₃.answer hans).2 rfl

end owned

/-- A stack with one entry, which `pop_all` has moved to a new stack. Another thread is in `pop` of
the first stack, before `delete_self`. -/
def handedOver (t u : Fin 2) : List (Action Nat 2) :=
  [.create, .thread t (.invoke (.call 0 (.push 7))), .thread t .proceed, .thread t .proceed,
    .thread t .proceed, .thread u (.invoke (.call 0 .pop)), .thread u .proceed,
    .thread u .proceed, .thread u .proceed, .thread u .proceed, .thread t (.invoke (.popAll 0)),
    .thread t .proceed]

def byThread (t : Fin 2) : Action Nat 2 → Bool
  | .thread u _ => u == t
  | _ => false

/-- The last event is the return of a call on the stack `j`. -/
def lastAnswer (w : World Nat 2) (j : Nat) : Option Stack.Res :=
  match w.history.getLast? with
  | some (.result _ (.call i _) (.call res)) => if i = j then some res else none
  | _ => none

theorem contents_one {w : World Nat 2} (hnewest : w.family.newest 1 = some 0)
    (hnext : w.family.heap.link 0 = .null) : Contents w.family 1 [0] := by
  refine ⟨[0], ⟨hnewest, ?_⟩, ?_⟩
  · show (w.family.heap.link 0).addr = none
    rw [hnext]
    rfl
  · have hlive : w.family.heap.isDeleted 0 = false := by
      unfold Heap.isDeleted
      rw [hnext]
      rfl
    rw [List.filter_cons_of_pos (by rw [hlive]; rfl)]
    rfl

theorem popAll_hands_over_one : ∃ w : World Nat 2, Contents w.family 1 [0] ∧
    ∀ w₁, Run World.step (fun w a => Hands w a ∧ worksOn w a ≠ some 1) w w₁ →
      Contents w₁.family 1 [0] := by
  have hex : (exec World.step (fun _ _ => true) World.init (handedOver 0 1)).any (fun w =>
      decide (w.family.newest 1 = some 0 ∧ w.family.heap.link 0 = .null ∧ 1 < w.count)) = true := by
    decide +kernel
  obtain ⟨w, hrun, hw⟩ := Run.of_exec_any hex
  obtain ⟨hnewest, hnext, hcount⟩ := of_decide_eq_true hw
  have hl := contents_one hnewest hnext
  exact ⟨w, hl, ((popAll_hands_over hrun).2 1 [0] hcount hl).1⟩

/-- `pop_all` has returned the stack `1`, and `peek` on it answers with the entry `0`. Then the
other thread deletes the entry in its call on the stack `0`, and `pop` finds nothing on the stack
`1`. -/
theorem popAll_entry_deleted : ∃ w w' w'' : World Nat 2,
    Run World.step (fun _ _ => True) World.init w ∧
    lastAnswer w 1 = some (.peeked (some 0)) ∧ Contents w.family 1 [0] ∧
    w.step (.thread 1 .proceed) = some w' ∧ stackOf (w.pc 1) = some 0 ∧ Contents w'.family 1 [] ∧
    Run World.step (fun _ a => ∃ act, a = .thread 0 act) w' w'' ∧
    lastAnswer w'' 1 = some (.popped none) := by
  have hex : (exec World.step (fun _ _ => true) World.init
      (handedOver 0 1 ++ [.thread 0 (.invoke (.call 1 .peek)), .thread 0 .proceed,
        .thread 0 .proceed])).any (fun w => decide (lastAnswer w 1 = some (.peeked (some 0)) ∧
          w.family.newest 1 = some 0 ∧ w.family.heap.link 0 = .null ∧
          stackOf (w.pc 1) = some 0) && (w.step (.thread 1 .proceed)).any fun w' =>
            decide (w'.family.newest 1 = some 0 ∧
              w'.family.heap.link 0 = ⟨none, .second⟩) &&
              (exec World.step (fun _ a => byThread 0 a) w'
                [.thread 0 (.invoke (.call 1 .pop)), .thread 0 .proceed, .thread 0 .proceed,
                  .thread 0 .proceed, .thread 0 .proceed]).any fun w'' =>
                decide (lastAnswer w'' 1 = some (.popped none))) = true := by decide +kernel
  obtain ⟨w, hrun, hw⟩ := Run.of_exec_any hex
  rw [Bool.and_eq_true] at hw
  obtain ⟨hanswer, hnewest, hnext, hstack⟩ := of_decide_eq_true hw.1
  obtain ⟨w', hs, hw'⟩ := (Option.any_eq_true _ _).mp hw.2
  rw [Bool.and_eq_true] at hw'
  obtain ⟨hnewest', hnext'⟩ := of_decide_eq_true hw'.1
  obtain ⟨w'', hrun', hanswer'⟩ := Run.of_exec_any hw'.2
  refine ⟨w, w', w'', hrun.mono fun _ _ _ => trivial, hanswer, contents_one hnewest hnext, hs,
    hstack, ⟨[0], ⟨hnewest', ?_⟩, ?_⟩, hrun'.mono fun _ a ha => ?_, of_decide_eq_true hanswer'⟩
  · show (w'.family.heap.link 0).addr = none
    rw [hnext']
  · have hdead : w'.family.heap.isDeleted 0 = true := by
      unfold Heap.isDeleted
      rw [hnext']
      rfl
    rw [List.filter_cons_of_neg (by rw [hdead]; nofun)]
    rfl
  · unfold byThread at ha
    split at ha
    · rename_i t act
      rw [beq_iff_eq.mp ha]
      exact ⟨act, rfl⟩
    · cases ha

end Sdd.Proofs.Stacks
