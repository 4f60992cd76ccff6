import Sdd.Proofs.Stack.Words

/-!
# `Sdd.Proofs.Stack.Calls`: what a call on a stack relies on

`CallInv` is what a call in progress knows of the entries it has seen: they were attached,
those that it cleans up are deleted, and the entry that it has created is its own. A pusher
stands before its compare-and-exchange with an entry that is linked to what it expects in
`newest`, or the expected entry was released (`Linked`).

`Moved` is what one atomic access of a call does to the stacks and leaves to the others, and
where it leads the call. The access is a write, and then a walk to the next atomic access,
in which the entry of a push can be created. The lemmas `evaluate_moved` and `cleaned_moved`
follow the walk, one for each function of the model, and `step_steps` puts the writes together with
the walks for a call on the stack `i` of a family.
-/

set_option autoImplicit false

namespace Sdd.Proofs.Stack

open Sdd.Lib Sdd.Stack

variable {T ι : Type} [DecidableEq ι]

/-- The entry that a thread which cleans up has created. -/
def cleanEntry : Clean T → Option Addr
  | .push p => p.entry
  | _ => none

/-- The entry that a call has created and not attached yet. -/
def ownEntry : Call T → Option Addr
  | .loadNewest k | .cleanDeleted k _ | .cleanNext k _ _ | .cleanExchange k _ _ => cleanEntry k
  | .swapLink _ e _ | .attach _ e _ => some e
  | .popGetShared _ _ | .popDeleted _ _ | .popDelete _ _ => none

section

variable (h : Heap T) (att : List Addr)

/-- The entry of a push is not attached. -/
def PushOk (p : Push T) : Prop :=
  ∀ e, p.entry = some e → e < h.nextAddr ∧ e ∉ att ∧ h.value e = some p.val

/-- What a thread that cleans up knows. -/
def CleanOk : Clean T → Prop
  | .push p => PushOk h att p
  | .popped _ e => e ∈ att ∧ h.isDeleted e = true
  | .popIf _ | .peek | .isEmpty => True

/-- The entry `e` is linked to `newest`, unless that was released. -/
def Linked (e : Addr) (newest : Option Addr) : Prop :=
  next h e = newest ∨ ∃ l, newest = some l ∧ h.released l = true

/-- What a call knows. -/
def CallInv (tgt : Addr → Option Addr) : Call T → Prop
  | .loadNewest k => CleanOk h att k
  | .cleanDeleted k x => CleanOk h att k ∧ x ∈ att
  | .cleanNext k x call => CleanOk h att k ∧ x ∈ att ∧ h.isDeleted x = true ∧
      SharedOk (listView att h.isDeleted tgt) x call
  | .cleanExchange k x next => CleanOk h att k ∧ x ∈ att ∧ h.isDeleted x = true ∧
      Returned (listView att h.isDeleted tgt) True x next
  | .swapLink p e newest => PushOk h att p ∧ p.entry = some e ∧ ∀ l, newest = some l → l ∈ att
  | .attach p e newest => PushOk h att p ∧ p.entry = some e ∧ (∀ l, newest = some l → l ∈ att) ∧
      Linked h e newest
  | .popGetShared _ x | .popDeleted _ x | .popDelete _ x => x ∈ att

/-- What a result says of an entry. -/
def ResOk : Res → Prop
  | .pushed e | .refused e | .peeked (some e) => e ∈ att
  | .popped (some e) => e ∈ att ∧ h.isDeleted e = true
  | .rejected | .popped none | .peeked none | .empty _ => True

/-- What is known of a call after an access. -/
def OutcomeOk (tgt : Addr → Option Addr) : Outcome (Call T) Res → Prop
  | .running call => CallInv h att tgt call ∧ ∀ x, call.holds x = true → h.released x = false
  | .done res => ResOk h att res

end

/-- One access of a call that has created the entry `own`. -/
structure Moved (h h' : Heap T) (att att' : List Addr) (owner : Addr → ι)
    (word : ι → Option Addr) (tgt tgt' : Addr → Option Addr) (own : Option Addr)
    (out : Outcome (Call T) Res) : Prop where
  words : Stacks h' att' owner word tgt'
  ext : Ext h h' att att' tgt tgt' own
  released : h'.released = h.released
  value : ∀ x, x < h.nextAddr → h'.value x = h.value x
  outcome : OutcomeOk h' att' tgt' out
  own : ∀ c e, out = .running c → ownEntry c = some e → own = some e ∨ h.nextAddr ≤ e

section ext

variable {h h' : Heap T} {att att' : List Addr} {tgt tgt' : Addr → Option Addr}
  {own : Option Addr} {p : Push T} {k : Clean T}

omit [DecidableEq ι]

theorem PushOk.ext (hp : PushOk h att p) (he : Ext h h' att att' tgt tgt' own)
    (hown : ∀ e, p.entry = some e → own ≠ some e) : PushOk h' att' p := by
  intro e hentry
  obtain ⟨hlt, hnot, hvalue⟩ := hp e hentry
  refine ⟨Nat.lt_of_lt_of_le hlt he.nextAddr, ?_, (he.value e hlt hnot).trans hvalue⟩
  intro hmem
  rcases he.attached e hmem with hmem | hmem
  · exact hnot hmem
  · exact hown e hentry hmem

theorem CleanOk.ext (hk : CleanOk h att k) (he : Ext h h' att att' tgt tgt' own)
    (hown : ∀ e, cleanEntry k = some e → own ≠ some e) : CleanOk h' att' k := by
  cases k with
  | push p => exact PushOk.ext hk he hown
  | popped cond e => exact ⟨he.later.att e hk.1, he.later.dead e hk.2⟩
  | popIf cond => exact trivial
  | peek => exact trivial
  | isEmpty => exact trivial

/-- A call can rely on what it knows while the others go on. -/
theorem CallInv.ext {call : Call T} (hc : CallInv h att tgt call)
    (he : Ext h h' att att' tgt tgt' own)
    (hown : ∀ e, ownEntry call = some e → own ≠ some e) : CallInv h' att' tgt' call := by
  cases call with
  | loadNewest k => exact CleanOk.ext hc he hown
  | cleanDeleted k x =>
    obtain ⟨hk, hx⟩ := hc
    exact ⟨hk.ext he hown, he.later.att x hx⟩
  | cleanNext k x call =>
    obtain ⟨hk, hx, hdead, hcall⟩ := hc
    exact ⟨hk.ext he hown, he.later.att x hx, he.later.dead x hdead, he.later.sharedOk hcall⟩
  | cleanExchange k x next =>
    obtain ⟨hk, hx, hdead, hret⟩ := hc
    exact ⟨hk.ext he hown, he.later.att x hx, he.later.dead x hdead, he.later.returned hret⟩
  | swapLink p e newest =>
    obtain ⟨hp, hentry, hnewest⟩ := hc
    refine ⟨hp.ext he fun e' he' => hown e' (hentry.symm.trans he'), hentry, ?_⟩
    exact fun l hl => he.later.att l (hnewest l hl)
  | attach p e newest =>
    obtain ⟨hp, hentry, hnewest, hlink⟩ := hc
    obtain ⟨hlt, hnot, -⟩ := hp e hentry
    refine ⟨hp.ext he fun e' he' => hown e' (hentry.symm.trans he'), hentry, ?_, ?_⟩
    · exact fun l hl => he.later.att l (hnewest l hl)
    -- The link that attach has set is only changed by the thread that owns the entry.
    · rcases hlink with hlink | ⟨l, hl, hrel⟩
      · refine .inl ?_
        rw [next, he.link e hlt hnot (hown e rfl)]
        exact hlink
      · exact .inr ⟨l, hl, he.released l hrel⟩
  | popGetShared cond x => exact he.later.att x hc
  | popDeleted cond x => exact he.later.att x hc
  | popDelete cond x => exact he.later.att x hc

/-- The entry that a call has created is allocated and not attached. -/
theorem CallInv.unattached {call : Call T} {e : Addr} (hc : CallInv h att tgt call)
    (he : ownEntry call = some e) : e < h.nextAddr ∧ e ∉ att := by
  have hclean : ∀ k : Clean T, CleanOk h att k → cleanEntry k = some e →
      e < h.nextAddr ∧ e ∉ att := by
    intro k hk he
    cases k with
    | push p => exact ⟨(hk e he).1, (hk e he).2.1⟩
    | _ => cases he
  cases call with
  | loadNewest k => exact hclean k hc he
  | cleanDeleted k x => exact hclean k hc.1 he
  | cleanNext k x call => exact hclean k hc.1 he
  | cleanExchange k x next => exact hclean k hc.1 he
  | swapLink p e' newest =>
    cases he
    exact ⟨(hc.1 e hc.2.1).1, (hc.1 e hc.2.1).2.1⟩
  | attach p e' newest =>
    cases he
    exact ⟨(hc.1 e hc.2.1).1, (hc.1 e hc.2.1).2.1⟩
  | _ => cases he

/-- The call begins. -/
theorem callInv_start (op : Op T) : CallInv h att tgt (Call.start op) := by
  cases op with
  | pushIf val cond => exact fun e he => by cases he
  | popIf cond => exact trivial
  | peek => exact trivial
  | isEmpty => exact trivial

end ext

section walk

variable {m : Mem T} {h : Heap T} {att : List Addr} {owner : Addr → ι} {word : ι → Option Addr}
  {tgt tgt' : Addr → Option Addr} {own : Option Addr} {p : Push T} {k : Clean T}
  {o : Option Addr}

/-- The state after the write of an access, in which nothing is attached, and before the walk
to the next one. -/
structure Written (h h' : Heap T) (att : List Addr) (owner : Addr → ι) (word : ι → Option Addr)
    (tgt tgt' : Addr → Option Addr) : Prop where
  words : Stacks h' att owner word tgt'
  ext : Ext h h' att att tgt tgt' none
  released : h'.released = h.released
  value : h'.value = h.value

/-- What a thread that cleans up holds is not released. -/
def Held (h : Heap T) (k : Clean T) : Prop := ∀ e, k.holds = some e → h.released e = false

/-- The walk ends where the call can go on. -/
theorem Written.moved (hw : Written h m.heap att owner word tgt tgt')
    {out : Outcome (Call T) Res} (hout : OutcomeOk m.heap att tgt' out)
    (hown : ∀ c e, out = .running c → ownEntry c = some e → own = some e) :
    Moved h m.heap att att owner word tgt tgt' own out where
  words := hw.words
  ext := hw.ext.of_none
  released := hw.released
  value x _ := congrFun hw.value x
  outcome := hout
  own c e hc he := .inl (hown c e hc he)

/-- The call returns. -/
theorem Written.done (hw : Written h m.heap att owner word tgt tgt') {res : Res}
    (hres : ResOk m.heap att res) : Moved h m.heap att att owner word tgt tgt' own (.done res) :=
  hw.moved hres fun c e hc => by cases hc

/-- The walk writes to the heap only. -/
theorem evaluate_frame : (m.evaluate p o).1 = { m with heap := (m.evaluate p o).1.heap } := by
  unfold Mem.evaluate
  split
  · split
    · rfl
    · rfl
  · rfl

theorem cleaned_frame : (m.cleaned k o).1 = { m with heap := (m.cleaned k o).1.heap } := by
  unfold Mem.cleaned
  cases k with
  | push p => exact evaluate_frame
  | popIf cond => cases o <;> rfl
  | popped cond e => rfl
  | peek => rfl
  | isEmpty => rfl

theorem cleanup_frame : (m.cleanup k o).1 = { m with heap := (m.cleanup k o).1.heap } := by
  cases o with
  | none => exact cleaned_frame
  | some x => rfl

/-- The condition of `push_if` is evaluated. -/
theorem evaluate_moved (hw : Written h m.heap att owner word tgt tgt')
    (hp : PushOk m.heap att p) (hheld : Held m.heap (.push p)) (ho : ∀ l, o = some l → l ∈ att) :
    Moved h (m.evaluate p o).1.heap att att owner word tgt tgt' p.entry
      (m.evaluate p o).2 := by
  unfold Mem.evaluate
  -- The condition holds: the push goes on with its entry, or with a new one.
  by_cases hcond : p.cond (o.bind m.heap.value) = true
  · rw [if_pos hcond]
    split
    · rename_i e he
      refine hw.moved ⟨⟨hp, he, ho⟩, ?_⟩ fun c e' hc he' => ?_
      · intro x hx
        have hex : e = x := by simpa [Call.holds] using hx
        exact hheld x (he.trans (congrArg some hex))
      · cases hc
        exact he.trans he'
    · -- Nobody knows the new entry.
      have hnew : m.heap.nextAddr ∉ att := fun hmem =>
        absurd (hw.words.heap.bound _ hmem) (Nat.lt_irrefl _)
      have hrel : m.heap.released m.heap.nextAddr = false := by
        by_contra hrel
        rw [Bool.not_eq_false] at hrel
        exact absurd (hw.words.heap.allocated _ hrel) (Nat.lt_irrefl _)
      constructor
      case words => exact hw.words.create p.val
      case ext => exact (hw.ext.trans (ext_create p.val)).of_none
      case released => exact hw.released
      case value =>
        intro x hx
        rw [← hw.value]
        show Function.update m.heap.value m.heap.nextAddr _ x = m.heap.value x
        rw [Function.update_of_ne (Nat.ne_of_lt (Nat.lt_of_lt_of_le hx hw.ext.nextAddr))]
      case outcome =>
        refine ⟨⟨?_, rfl, ho⟩, ?_⟩
        · intro e he
          have hen : m.heap.nextAddr = e := Option.some.inj he
          rw [← hen]
          refine ⟨Nat.lt_succ_self _, hnew, ?_⟩
          show Function.update m.heap.value m.heap.nextAddr _ m.heap.nextAddr = _
          rw [Function.update_self]
        · intro x hx
          have hex : m.heap.nextAddr = x := by simpa [Call.holds] using hx
          rw [← hex]
          exact hrel
      -- A new entry belongs to this call alone, since its address is new.
      case own =>
        intro c e hc he
        cases hc
        have hen : m.heap.nextAddr = e := Option.some.inj he
        rw [← hen]
        exact .inr hw.ext.nextAddr
  · rw [if_neg hcond]
    exact hw.done trivial

/-- `cleanup_newest` returns. -/
theorem cleaned_moved (hw : Written h m.heap att owner word tgt tgt')
    (hk : CleanOk m.heap att k) (hheld : Held m.heap k) (ho : ∀ l, o = some l → l ∈ att) :
    Moved h (m.cleaned k o).1.heap att att owner word tgt tgt'
      (cleanEntry k) (m.cleaned k o).2 := by
  unfold Mem.cleaned
  cases k with
  | push p => exact evaluate_moved hw hk hheld ho
  | popIf cond =>
    cases o with
    | none => exact hw.done trivial
    | some x =>
      refine hw.moved ⟨ho x rfl, ?_⟩ fun c e hc he => ?_
      · intro y hy
        cases hy
      · cases hc
        exact he
  | popped cond e => exact hw.done hk
  | peek =>
    cases o with
    | none => exact hw.done trivial
    | some x => exact hw.done (ho x rfl)
  | isEmpty => exact hw.done trivial

end walk

section step

variable {m : Mem T} {owner : Addr → ι} {word : ι → Option Addr} {tgt : Addr → Option Addr}
  {i : ι}

/-- An entry is attached to the stack `i`, or none is. -/
inductive Attaches (att : List Addr) (owner : Addr → ι) (i : ι) (own : Option Addr) :
    List Addr → (Addr → ι) → Prop where
  | none : Attaches att owner i own att owner
  | entry (e : Addr) (he : own = some e) :
      Attaches att owner i own (e :: att) (Function.update owner e i)

/-- Nothing is written. -/
theorem Stacks.written (hs : Stacks m.heap m.attached owner word tgt) (hword : word i = m.newest) :
    Written m.heap m.heap m.attached owner (Function.update word i m.newest) tgt tgt where
  words := by
    rw [← hword, Function.update_eq_self]
    exact hs
  ext := .refl _ _ _ _
  released := rfl
  value := rfl

/-- A `Shared` of the entry that was found, if it was not released. -/
theorem linked_getShared {h : Heap T} {e : Addr} {newest : Option Addr} :
    Linked (h.setLink e ⟨h.getShared ⟨newest, .none⟩, .none⟩) e newest := by
  unfold Linked
  rw [next_setLink, Function.update_self]
  show newest.filter (fun x => !h.released x) = newest ∨ _
  cases newest with
  | none => exact .inl rfl
  | some l =>
    cases hrel : h.released l with
    | false => exact .inl (by simp [hrel])
    | true => exact .inr ⟨l, rfl, hrel⟩

/-- The access that a call makes to a stack. -/
def Steps (m : Mem T) (owner : Addr → ι) (word : ι → Option Addr) (tgt : Addr → Option Addr)
    (i : ι) (own : Option Addr) (r : Mem T × Outcome (Call T) Res) : Prop :=
  ∃ owner' tgt', Attaches m.attached owner i own r.1.attached owner' ∧
    Moved m.heap r.1.heap m.attached r.1.attached owner' (Function.update word i r.1.newest)
      tgt tgt' own r.2

/-- An access that attaches nothing and leads to a place of the call. -/
theorem Written.steps {m' : Mem T} {tgt' : Addr → Option Addr} {own : Option Addr} {call : Call T}
    (hw : Written m.heap m'.heap m.attached owner (Function.update word i m'.newest) tgt tgt')
    (hatt : m'.attached = m.attached) (hcall : CallInv m'.heap m.attached tgt' call)
    (hheld : ∀ x, call.holds x = true → m'.heap.released x = false)
    (hown : ∀ e, ownEntry call = some e → own = some e) :
    Steps m owner word tgt i own (m', .running call) := by
  refine ⟨owner, tgt', ?_, ?_⟩
  · show Attaches m.attached owner i own m'.attached owner
    rw [hatt]
    exact .none
  · show Moved m.heap m'.heap m.attached m'.attached owner _ tgt tgt' own _
    rw [hatt]
    refine hw.moved ⟨hcall, hheld⟩ fun c e hc he => ?_
    cases hc
    exact hown e he

section

variable {m' : Mem T} {tgt' : Addr → Option Addr} {k : Clean T} {o : Option Addr}
  (hw : Written m.heap m'.heap m.attached owner (Function.update word i m'.newest) tgt tgt')
  (hatt : m'.attached = m.attached) (hk : CleanOk m'.heap m.attached k) (hheld : Held m'.heap k)
  (ho : ∀ l, o = some l → l ∈ m.attached)
include hw hatt hk hheld ho

/-- An access after which `cleanup_newest` returns. -/
theorem Written.steps_cleaned :
    Steps m owner word tgt i (cleanEntry k) (m'.cleaned k o) := by
  have hnewest : (m'.cleaned k o).1.newest = m'.newest := by rw [cleaned_frame]
  have hattached : (m'.cleaned k o).1.attached = m.attached := by rw [cleaned_frame, hatt]
  refine ⟨owner, tgt', ?_, ?_⟩
  · rw [hattached]
    exact .none
  · rw [hattached, hnewest]
    exact cleaned_moved hw hk hheld ho

/-- An access after which the loop of `cleanup_newest` goes on. -/
theorem Written.steps_cleanup :
    Steps m owner word tgt i (cleanEntry k) (m'.cleanup k o) := by
  cases o with
  | none => exact hw.steps_cleaned hatt hk hheld ho
  | some x =>
    refine hw.steps hatt ⟨hk, ho x rfl⟩ ?_ fun e he => he
    intro y hy
    exact hheld y (by simpa [Call.holds] using hy)

end

variable (hs : Stacks m.heap m.attached owner word tgt) (hword : word i = m.newest)
include hs hword

/-- An entry that `newest` refers to was attached. -/
theorem Stacks.newest_mem : ∀ l, m.newest = some l → l ∈ m.attached :=
  fun l hl => (hs.roots i l (hword.trans hl)).1

omit hword in
/-- The clean-up of the link of a deleted entry: what it writes, and where it leads the call. -/
theorem cleanNext_outcome {k : Clean T} {x : Addr} {call : NextShared}
    (hc : CallInv m.heap m.attached tgt (.cleanNext k x call))
    (hheld : ∀ y, (Call.cleanNext k x call).holds y = true → m.heap.released y = false) :
    Cleans (listView m.attached m.heap.isDeleted tgt) m.heap (call.step m.heap).1 ∧
      ∃ call', (m.step (.cleanNext k x call))
          = ({ m with heap := (call.step m.heap).1 }, .running call') ∧
        CallInv (call.step m.heap).1 m.attached tgt call' ∧
        (∀ y, call'.holds y = true → (call.step m.heap).1.released y = false) ∧
        ownEntry call' = cleanEntry k := by
  obtain ⟨hk, hx, hdead, hcall⟩ := hc
  have hheldCall : ∀ y, call.holds = some y → m.heap.released y = false := fun y hy =>
    hheld y (by simp [Call.holds, hy])
  have hheldK : ∀ y, k.holds = some y → m.heap.released y = false := fun y hy =>
    hheld y (by simp [Call.holds, hy])
  have hclean := nextShared_cleans hcall hheldCall
  have hext := ext_clean hclean
  have hrel := hclean.fields.2.1
  have hafter := nextShared_ok hs.heap (fun y hy hrel => hs.dead_of_released hy hrel) hcall
  have hk' : CleanOk (call.step m.heap).1 m.attached k := hk.ext hext fun _ _ => by simp
  have hdead' : (call.step m.heap).1.isDeleted x = true := hext.later.dead x hdead
  refine ⟨hclean, ?_⟩
  -- The walk goes on, or it has found the entry that goes into newest.
  simp only [Mem.step]
  cases hout : (call.step m.heap).2 with
  | running call' =>
    rw [hout] at hafter
    have hcall' : SharedOk (listView m.attached (call.step m.heap).1.isDeleted tgt) x call' :=
      hext.later.sharedOk hafter
    refine ⟨_, rfl, ⟨hk', hx, hdead', hcall'⟩, fun y hy => ?_, rfl⟩
    rw [hrel]
    have hor : k.holds = some y ∨ call'.holds = some y := by simpa [Call.holds] using hy
    rcases hor with hy | hy
    · exact hheldK y hy
    · exact nextShared_holds hout hy
  | done next =>
    rw [hout] at hafter
    have hret : Returned (listView m.attached (call.step m.heap).1.isDeleted tgt) True x next :=
      hext.later.returned hafter
    refine ⟨_, rfl, ⟨hk', hx, hdead', hret⟩, fun y hy => ?_, rfl⟩
    rw [hrel]
    have hor : k.holds = some y ∨ next = some y := by simpa [Call.holds] using hy
    rcases hor with hy | hy
    · exact hheldK y hy
    · exact nextShared_result (hy ▸ hout)

/-- The clean-up of the link of a deleted entry. -/
theorem cleanNext_steps {k : Clean T} {x : Addr} {call : NextShared}
    (hc : CallInv m.heap m.attached tgt (.cleanNext k x call))
    (hheld : ∀ y, (Call.cleanNext k x call).holds y = true → m.heap.released y = false) :
    Steps m owner word tgt i (cleanEntry k) (m.step (.cleanNext k x call)) := by
  obtain ⟨hclean, call', hstep, hcall', hheld', hown⟩ := cleanNext_outcome hs hc hheld
  have hw : Written m.heap (call.step m.heap).1 m.attached owner
      (Function.update word i m.newest) tgt tgt := by
    rw [← hword, Function.update_eq_self]
    exact ⟨hs.clean hclean, ext_clean hclean, hclean.fields.2.1, hclean.fields.1⟩
  have hsteps : Steps m owner word tgt i (cleanEntry k)
      ({ m with heap := (call.step m.heap).1 }, .running call') :=
    Written.steps hw rfl hcall' hheld' fun e he => hown.symm.trans he
  rw [hstep]
  exact hsteps

/-- The word after the compare-and-exchange of `cleanup_newest`. -/
theorem Stacks.exchange {k : Clean T} {x : Addr} {next : Option Addr}
    (hc : CallInv m.heap m.attached tgt (.cleanExchange k x next))
    (hheld : ∀ y, (Call.cleanExchange k x next).holds y = true → m.heap.released y = false)
    (hnewest : m.newest = some x) :
    Stacks m.heap m.attached owner (Function.update word i next) tgt := by
  obtain ⟨-, -, -, hret⟩ := hc
  refine hs.setWord ?_ ?_
  · exact fun y hy => ⟨(hret.att y hy).1, hheld y (by simp [Call.holds, hy])⟩
  · rw [hword, hnewest]
    exact hret.tgt trivial

/-- The compare-and-exchange of `cleanup_newest`. -/
theorem cleanExchange_steps {k : Clean T} {x : Addr} {next : Option Addr}
    (hc : CallInv m.heap m.attached tgt (.cleanExchange k x next))
    (hheld : ∀ y, (Call.cleanExchange k x next).holds y = true → m.heap.released y = false) :
    Steps m owner word tgt i (cleanEntry k) (m.step (.cleanExchange k x next)) := by
  have hheldK : Held m.heap k := fun y hy => hheld y (by simp [Call.holds, hy])
  simp only [Mem.step]
  by_cases hnewest : m.newest = some x
  · have hw : Written m.heap m.heap m.attached owner (Function.update word i next) tgt tgt :=
      ⟨hs.exchange hword hc hheld hnewest, .refl _ _ _ _, rfl, rfl⟩
    obtain ⟨hk, hx, hdead, hret⟩ := hc
    have hatt : ∀ y, next = some y → y ∈ m.attached := fun y hy => (hret.att y hy).1
    rw [if_pos hnewest]
    have hsteps : Steps m owner word tgt i (cleanEntry k)
        ({ m with newest := next }.cleanup k next) :=
      Written.steps_cleanup hw rfl hk hheldK hatt
    exact hsteps
  · rw [if_neg hnewest]
    exact (hs.written hword).steps_cleanup rfl hc.1 hheldK (hs.newest_mem hword)

/-- The store to the link of the new entry. -/
theorem swapLink_steps {p : Push T} {e : Addr} {newest : Option Addr}
    (hc : CallInv m.heap m.attached tgt (.swapLink p e newest))
    (hheld : ∀ y, (Call.swapLink p e newest).holds y = true → m.heap.released y = false) :
    Steps m owner word tgt i (some e) (m.step (.swapLink p e newest)) := by
  obtain ⟨hp, hentry, hnewest⟩ := hc
  obtain ⟨hlt, hnot, -⟩ := hp e hentry
  refine ⟨owner, tgt, .none, ?_⟩
  constructor
  case words =>
    show Stacks _ _ _ (Function.update word i m.newest) _
    rw [← hword, Function.update_eq_self]
    refine hs.setPrivate hnot hlt fun y hy => ?_
    obtain ⟨hy, hrel⟩ := Option.filter_eq_some_iff.mp hy
    exact ⟨hnewest y hy, by simpa using hrel⟩
  case ext => exact ext_setPrivate (hs.unattached e hnot)
  case released => rfl
  case value => exact fun _ _ => rfl
  case outcome =>
    refine ⟨⟨hp, hentry, hnewest, linked_getShared⟩, ?_⟩
    exact fun y hy => hheld y hy
  case own =>
    intro c e' hc he'
    cases hc
    exact .inl he'

/-- The compare-and-exchange that attaches the new entry. -/
theorem attach_steps {p : Push T} {e : Addr} {newest : Option Addr}
    (hc : CallInv m.heap m.attached tgt (.attach p e newest))
    (hheld : ∀ y, (Call.attach p e newest).holds y = true → m.heap.released y = false) :
    Steps m owner word tgt i (some e) (m.step (.attach p e newest)) := by
  obtain ⟨hp, hentry, hnewest, hlink⟩ := hc
  obtain ⟨hlt, hnot, -⟩ := hp e hentry
  have hrel : m.heap.released e = false := hheld e (by simp [Call.holds])
  simp only [Mem.step]
  by_cases heq : m.newest = newest
  · rw [if_pos heq]
    -- The link of the new entry is newest as it was loaded; an entry that has been released since
    -- is not newest any more.
    have hnext : next m.heap e = word i := by
      rcases hlink with hlink | ⟨l, hl, hdrop⟩
      · rw [hlink, hword, heq]
      · have hkept := (hs.roots i l (hword.trans (heq.trans hl))).2
        rw [hdrop] at hkept
        cases hkept
    refine ⟨Function.update owner e i, tgt, .entry e rfl, ?_⟩
    constructor
    -- The entry is attached in front of the others.
    case words => exact hs.attach hnot hlt hrel hnext
    case ext => exact ext_attach hnot
    case released => rfl
    case value => exact fun _ _ => rfl
    case outcome => exact List.mem_cons_self
    case own =>
      intro c e' hc
      cases hc
  -- newest is another entry meanwhile, so the call cleans up once more and reads it again.
  · rw [if_neg heq, ← hentry]
    have hheldP : Held m.heap (.push p) := by
      intro y hy
      have hey : e = y := Option.some.inj (hentry.symm.trans hy)
      exact hey ▸ hrel
    have hclean : CleanOk m.heap m.attached (.push p) := hp
    exact (hs.written hword).steps_cleanup rfl hclean hheldP (hs.newest_mem hword)

/-- The deletion of an entry. -/
theorem popDelete_steps {cond : T → Bool} {x : Addr} (hx : x ∈ m.attached)
    (hrel : m.heap.released x = false) :
    Steps m owner word tgt i none (m.step (.popDelete cond x)) := by
  simp only [Mem.step]
  cases hlive : m.heap.isDeleted x with
  | true =>
    rw [deleteSelf_dead hlive]
    exact (hs.written hword).steps rfl ⟨trivial, hx⟩ (fun y hy => by cases hy) fun e he => he
  | false =>
    have hext : Ext _ _ _ _ tgt _ _ := ext_kill hx hlive
    have hkill := hs.kill hx hlive
    have hdead : (m.heap.deleteSelf x).1.isDeleted x = true := by
      rw [isDeleted_deleteSelf hlive, Function.update_self]
    have hheap := deleteSelf_eq hlive
    -- The heap after the deletion gets a name of its own, with the facts about it above.
    generalize hh : (m.heap.deleteSelf x).1 = h' at hext hkill hdead
    have hdel : m.heap.deleteSelf x = (h', true) := by
      rw [← hh, hheap]
    have hset : h' = m.heap.setLink x ((m.heap.link x).withTag .second) := by
      rw [← hh, hheap]
    rw [hdel]
    have hw : Written m.heap h' m.attached owner (Function.update word i m.newest) tgt
        (killed (next m.heap) tgt x) := by
      rw [← hword, Function.update_eq_self]
      exact ⟨hkill, hext, by rw [hset]; rfl, by rw [hset]; rfl⟩
    have hheld : ∀ y, (Call.cleanDeleted (.popped cond x) x).holds y = true →
        h'.released y = false := by
      intro y hy
      have hxy : x = y := by simpa [Call.holds, Clean.holds] using hy
      rw [hset, ← hxy]
      exact hrel
    have hsteps : Steps m owner word tgt i none
        ({ m with heap := h' }, .running (.cleanDeleted (.popped cond x) x)) :=
      Written.steps hw rfl ⟨⟨hx, hdead⟩, hx⟩ hheld fun e he => he
    exact hsteps

/-- One access of a call. -/
theorem step_steps {call : Call T} (hc : CallInv m.heap m.attached tgt call)
    (hheld : ∀ x, call.holds x = true → m.heap.released x = false) :
    Steps m owner word tgt i (ownEntry call) (m.step call) := by
  have hsame := hs.written hword
  -- By cases of the access that the call makes next.
  cases call with
  | loadNewest k =>
    refine hsame.steps_cleanup rfl hc ?_ (hs.newest_mem hword)
    exact fun y hy => hheld y (by simp [Call.holds, hy])
  | cleanDeleted k x =>
    obtain ⟨hk, hx⟩ := hc
    have hheldK : Held m.heap k := fun y hy => hheld y (by simp [Call.holds, hy])
    simp only [Mem.step]
    by_cases hdead : m.heap.isDeleted x = true
    · rw [if_pos hdead]
      refine hsame.steps rfl ⟨hk, hx, hdead, sharedOk_start hx hdead⟩ ?_ fun e he => he
      intro y hy
      exact hheldK y (by simpa [Call.holds, NextShared.start, NextShared.holds, NextPtr.start,
        NextPtr.holds] using hy)
    · rw [if_neg hdead]
      exact hsame.steps_cleaned rfl hk hheldK fun l hl => Option.some.inj hl ▸ hx
  | cleanNext k x call => exact cleanNext_steps hs hword hc hheld
  | cleanExchange k x next => exact cleanExchange_steps hs hword hc hheld
  | swapLink p e newest => exact swapLink_steps hs hword hc hheld
  | attach p e newest => exact attach_steps hs hword hc hheld
  | popGetShared cond x =>
    simp only [Mem.step]
    by_cases hrel : m.heap.released x = true
    · rw [if_pos hrel]
      exact hsame.steps rfl ⟨trivial, hc⟩ (fun y hy => by cases hy) fun e he => he
    · rw [if_neg hrel]
      refine hsame.steps rfl hc ?_ fun e he => he
      intro y hy
      have hxy : x = y := by simpa [Call.holds] using hy
      exact hxy ▸ Bool.not_eq_true _ ▸ hrel
  | popDeleted cond x =>
    simp only [Mem.step]
    split
    · refine ⟨owner, tgt, .none, ?_⟩
      exact hsame.done hc
    · exact hsame.steps rfl hc hheld fun e he => he
  | popDelete cond x => exact popDelete_steps hs hword hc (hheld x (by simp [Call.holds]))

end step

end Sdd.Proofs.Stack
