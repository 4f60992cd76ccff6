import Sdd.Lib.Run
import Sdd.Proofs.SharedList.Shape
import Sdd.SharedList

/-!
# `Sdd.Proofs.SharedList.Runs`: deletion is final, and nothing is lost

`CallInv` is what a call in progress relies on: `push_back` has its entry alone until it
attaches it, and `next_ptr` has found pointers that lead to the same undeleted entry as the
link that it has started from. `Stepped` says what one access of a call does to the entries
(`call_stepped`), and `Inv` is the invariant of the system. `nothing_lost` is the result.
-/

set_option autoImplicit false

namespace Sdd.Proofs.SharedList

open Sdd.Lib Sdd.SharedList

variable {T : Type} {n : Nat} {h h' : Heap T} {dropped : Addr → Bool} {ps : List (Addr × Addr)}
  {order : List Addr} {tgt : Addr → Option Addr} {x e r : Addr}

/-! ## Calls -/

/-- What a call on `x` knows at the place where it stands. -/
def CallState (h : Heap T) (order : List Addr) (tgt : Addr → Option Addr) (x : Addr) : Call → Prop
  | .loadLink _ _ | .loadTag _ => True
  | .swapLink _ _ p => (p.tag = .none ∨ p.tag = .first) ∧ ∀ y, p.addr = some y → y ∈ order
  | .attach e _ p => (p.tag = .none ∨ p.tag = .first) ∧
      (next h e = p.addr ∨ ∃ y, p.addr = some y ∧ h.released y = true)
  | .exchangeTag op prev => op.allowed prev.tag = true
  | .nextPtr call => CallOk (listView order h.isDeleted tgt) False x call
  | .nextShared (.nextPtr call) => ∃ y, CallOk (listView order h.isDeleted tgt) False y call
  | .nextShared (.getShared p) => ∀ y, p.addr = some y → y ∈ order

/-- The invariant of a call on `x`. -/
structure CallInv (h : Heap T) (dropped : Addr → Bool) (order : List Addr)
    (tgt : Addr → Option Addr) (x : Addr) (c : Call) : Prop where
  att : x ∈ order
  kept : dropped x = false
  held : ∀ y, c.holds = some y → h.released y = false
  entry : ∀ e, c.entry = some e → e < h.nextAddr ∧ e ∉ order
  state : CallState h order tgt x c

/-- The push that succeeds with an access of a call on `x`. -/
def pushedBy (x : Addr) : Outcome Call Res → List (Addr × Addr)
  | .done (.pushed e) => [(x, e)]
  | _ => []

/-- The entry that `push_back` returns. -/
def returned : Res → Option Addr
  | .pushed e | .rejected e => some e
  | _ => none

/-- What an access of the call `c` on `x` has done. It deletes `x` if it is the one that makes
`delete_self` return `true`, and attaches an entry only if `x` is not deleted. -/
structure Stepped (h : Heap T) (dropped : Addr → Bool) (ps : List (Addr × Addr))
    (order : List Addr) (tgt : Addr → Option Addr) (x : Addr) (c : Call)
    (r : Heap T × Outcome Call Res) (order' : List Addr) (tgt' : Addr → Option Addr) : Prop where
  shape : Shape r.1 dropped (ps ++ pushedBy x r.2) order' tgt'
  ext : Ext h r.1 order order' tgt tgt' c.entry
  released : r.1.released = h.released
  running : ∀ c', r.2 = .running c' → order' = order ∧ c'.entry = c.entry ∧
    (∀ y, c'.holds = some y → h.released y = false) ∧ CallState r.1 order' tgt' x c'
  done : ∀ res, r.2 = .done res → ∀ y, y ∈ order' ↔ y ∈ order ∨ returned res = some y
  deleted : r.2 ≠ .done (.updated .deleteSelf true) ∧ r.1.isDeleted = h.isDeleted ∨
    r.2 = .done (.updated .deleteSelf true) ∧ h.isDeleted x = false ∧
      r.1.isDeleted = Function.update h.isDeleted x true
  alive : ∀ e, r.2 = .done (.pushed e) → h.isDeleted x = false

/-- The call of another thread keeps its invariant. -/
theorem CallInv.later {c : Call} {order' : List Addr} {tgt' : Addr → Option Addr} {own : Option Addr}
    {dropped' : Addr → Bool} (hc : CallInv h dropped order tgt x c)
    (he : Ext h h' order order' tgt tgt' own) (hown : ∀ e, c.entry = some e → own ≠ some e)
    (hkept : dropped' x = false) (hheld : ∀ y, c.holds = some y → h'.released y = false) :
    CallInv h' dropped' order' tgt' x c where
  att := he.later.att x hc.att
  kept := hkept
  held := hheld
  entry e hce := by
    obtain ⟨hlt, hnot⟩ := hc.entry e hce
    refine ⟨Nat.lt_of_lt_of_le hlt he.nextAddr, fun hmem => ?_⟩
    rcases he.attached e hmem with hmem | hmem
    · exact hnot hmem
    · exact hown e hce hmem
  state := by
    -- Only a pusher before its exchange knows something that another thread can change: that its
    -- entry is linked to what the exchange expects.
    have hstate := hc.state
    cases c with
    | loadLink | loadTag | exchangeTag => exact hstate
    | swapLink e mark p => exact ⟨hstate.1, fun y hy => he.later.att y (hstate.2 y hy)⟩
    | attach e mark p =>
      obtain ⟨hlt, hnot⟩ := hc.entry e rfl
      -- Either the link of the new entry is as it was, or the entry that the exchange expects was
      -- released, so that the exchange will fail.
      refine ⟨hstate.1, hstate.2.imp (fun hlink => ?_) fun hrel => ?_⟩
      · rw [next, he.link e hlt hnot (hown e rfl)]
        exact hlink
      · obtain ⟨y, hy, hrel⟩ := hrel
        exact ⟨y, hy, he.released y hrel⟩
    | nextPtr call => exact he.later.callOk hstate
    | nextShared call =>
      cases call with
      | nextPtr call =>
        obtain ⟨y, hy⟩ := hstate
        exact ⟨y, he.later.callOk hy⟩
      | getShared p => exact fun y hy => he.later.att y (hstate y hy)

section steps

variable {c : Call}

/-- An access that writes nothing, after which the call goes on. -/
theorem stepped_running (hs : Shape h dropped ps order tgt) {c' : Call} (he : c'.entry = c.entry)
    (hh : ∀ y, c'.holds = some y → h.released y = false) (hst : CallState h order tgt x c') :
    Stepped h dropped ps order tgt x c (h, .running c') order tgt where
  shape := (List.append_nil ps).symm ▸ hs
  ext := .refl _ _ _ _
  released := rfl
  running c'' hc'' := by
    cases hc''
    exact ⟨rfl, he, hh, hst⟩
  done := nofun
  deleted := .inl ⟨nofun, rfl⟩
  alive := nofun

/-- An access that writes nothing, and the return of a call that has no entry. -/
theorem stepped_done (hs : Shape h dropped ps order tgt) {res : Res} (hr : returned res = none)
    (hd : res ≠ .updated .deleteSelf true) :
    Stepped h dropped ps order tgt x c (h, .done res) order tgt where
  shape := by
    cases res with
    | pushed => cases hr
    | rejected | updated | nextPtr | nextShared => exact (List.append_nil ps).symm ▸ hs
  ext := .refl _ _ _ _
  released := rfl
  running := nofun
  done res' hres' y := by
    cases hres'
    rw [hr]
    exact (or_iff_left nofun).symm
  deleted := .inl ⟨fun hc => hd (by cases hc; rfl), rfl⟩
  alive e he := by
    cases he
    cases hr

/-- One turn of the loop of `push_back`. -/
theorem pushLoop_stepped (hs : Shape h dropped ps order tgt) (mark : Bool) (hc : c.entry = some e)
    (hlt : e < h.nextAddr) (he : e ∉ order) (hrel : h.released e = false) :
    ∃ order', Stepped h dropped ps order tgt x c (h, Call.pushLoop e mark (h.link x)) order' tgt := by
  unfold Call.pushLoop
  by_cases htag : (h.link x).tag = .second ∨ (h.link x).tag = .both
  · rw [if_pos htag]
    refine ⟨e :: order, ⟨(List.append_nil ps).symm ▸ hs.share he hlt, hc ▸ ext_attach he, rfl, nofun,
      fun res hres y => ?_, .inl ⟨nofun, rfl⟩, nofun⟩⟩
    cases hres
    rw [List.mem_cons, or_comm]
    exact or_congr_right ⟨fun hy => hy ▸ rfl, fun hy => (Option.some.inj hy).symm⟩
  · rw [if_neg htag]
    refine ⟨order, stepped_running hs hc.symm (fun y hy => ?_) ?_⟩
    · cases hy
      exact hrel
    · refine ⟨?_, hs.leads x⟩
      cases ht : (h.link x).tag with
      | none => exact .inl rfl
      | first => exact .inr rfl
      | second => exact absurd (.inl ht) htag
      | both => exact absurd (.inr ht) htag

/-- `update_tag_if` only updates the tags of undeleted entries. -/
theorem tag_of_allowed {op : TagOp} {tag : Tag} (ha : op.allowed tag = true) :
    tag = .none ∨ tag = .first := by
  cases op with
  | mark => exact .inl (beq_iff_eq.mp ha)
  | unmark => exact .inr (beq_iff_eq.mp ha)
  | deleteSelf => simpa [TagOp.allowed] using ha

/-- One turn of the loop of `update_tag_if`. -/
theorem tagLoop_stepped (hs : Shape h dropped ps order tgt) {op : TagOp} (hc : c.entry = none) :
    Stepped h dropped ps order tgt x c (h, Call.tagLoop op (h.link x)) order tgt := by
  unfold Call.tagLoop
  by_cases ha : op.allowed (h.link x).tag = true
  · rw [if_pos ha]
    exact stepped_running hs hc.symm nofun ha
  · rw [if_neg ha]
    exact stepped_done hs rfl nofun

/-- A link is cleaned up by a call that has no entry. -/
theorem Stepped.of_cleans (hs : Shape h dropped ps order tgt)
    (hc : Cleans (listView order h.isDeleted tgt) h h') (he : c.entry = none)
    {o : Outcome Call Res}
    (hrun : ∀ c', o = .running c' → c'.entry = none ∧
      (∀ y, c'.holds = some y → h.released y = false) ∧ CallState h order tgt x c')
    (hdone : ∀ res, o = .done res → returned res = none ∧ res ≠ .updated .deleteSelf true) :
    Stepped h dropped ps order tgt x c (h', o) order tgt where
  shape := by
    -- A clean-up returns no entry that was pushed.
    have hnil : pushedBy x o = [] := by
      cases o with
      | running => rfl
      | done res =>
        have hr := (hdone res rfl).1
        cases res with
        | pushed => cases hr
        | rejected | updated | nextPtr | nextShared => rfl
    rw [hnil, List.append_nil]
    exact hs.clean hc
  ext := he ▸ ext_clean hc
  released := hc.fields.2.1
  running c' hc' := by
    obtain ⟨hentry, hheld, hst⟩ := hrun c' hc'
    refine ⟨rfl, hentry.trans he.symm, hheld, ?_⟩
    -- The call knows the same as before, since no entry is deleted or attached.
    cases c' with
    | loadLink | loadTag | swapLink | exchangeTag => exact hst
    | attach => cases hentry
    | nextPtr call =>
      unfold CallState
      rw [hc.isDeleted_eq]
      exact hst
    | nextShared call =>
      cases call with
      | nextPtr call =>
        unfold CallState
        rw [hc.isDeleted_eq]
        exact hst
      | getShared p => exact hst
  done res hres y := by
    rw [(hdone res hres).1]
    exact (or_iff_left nofun).symm
  deleted := .inl ⟨fun ho => (hdone _ ho).2 rfl, hc.isDeleted_eq⟩
  alive e ho := by cases (hdone _ ho).1

/-- `push_back` stores the next entry to the link of the new one. -/
theorem swapLink_stepped (hs : Shape h dropped ps order tgt) {mark : Bool} {p : Ptr Addr}
    (hc : CallInv h dropped order tgt x (.swapLink e mark p)) (fails : Bool) :
    Stepped h dropped ps order tgt x (.swapLink e mark p)
      ((Call.swapLink e mark p).step h x fails) order tgt := by
  obtain ⟨hlt, he⟩ := hc.entry e rfl
  refine ⟨(List.append_nil ps).symm ▸ hs.setPrivate he hlt fun y hy => ?_,
    ext_setPrivate (hs.unattached e he), rfl, fun c' hc' => ?_, nofun,
    .inl ⟨nofun, isDeleted_private (hs.unattached e he)⟩, nofun⟩
  · obtain ⟨haddr, hrel⟩ := getShared_eq hy
    exact ⟨hc.state.2 y haddr, hrel⟩
  · cases hc'
    refine ⟨rfl, rfl, hc.held, hc.state.1, ?_⟩
    show next (h.setLink e ⟨h.getShared p, .none⟩) e = p.addr ∨ _
    rw [next_setLink, Function.update_self]
    cases hg : h.getShared p with
    | some y => exact .inl (getShared_eq hg).1.symm
    | none =>
      cases ha : p.addr with
      | none => exact .inl rfl
      | some y => exact .inr ⟨y, rfl, released_of_getShared ha hg⟩

/-- `push_back` attaches the entry, or tries again. -/
theorem attach_stepped (hs : Shape h dropped ps order tgt) {mark : Bool} {p : Ptr Addr}
    (hc : CallInv h dropped order tgt x (.attach e mark p)) (fails : Bool) :
    ∃ order', Stepped h dropped ps order tgt x (.attach e mark p)
      ((Call.attach e mark p).step h x fails) order' tgt := by
  obtain ⟨hlt, he⟩ := hc.entry e rfl
  have hrel : h.released e = false := hc.held e rfl
  obtain ⟨htag, hlink⟩ := hc.state
  simp only [Call.step]
  by_cases heq : h.link x = p ∧ ¬fails = true
  · rw [if_pos heq]
    obtain ⟨rfl, -⟩ := heq
    have hlive : h.isDeleted x = false := by
      rcases htag with htag | htag <;> simp [Heap.isDeleted, htag]
    have htag' : Call.newTag mark = .none ∨ Call.newTag mark = .first := by
      cases mark with
      | false => exact .inl rfl
      | true => exact .inr rfl
    -- The next entry was not released since `x` is linked to it.
    have hnext : next h e = next h x := by
      rcases hlink with hlink | ⟨y, hy, hrely⟩
      · exact hlink
      · rw [hs.owned x y hc.kept hy] at hrely
        cases hrely
    refine ⟨insertAfter x e order, hs.attach hc.att he hlive hlt hrel hnext htag',
      ext_insert hs hc.att he hlive htag', rfl, (by simp), fun res hres y => ?_,
      .inl ⟨(by simp), isDeleted_setLive hlive htag'⟩, fun _ _ => hlive⟩
    cases hres
    rw [mem_insertAfter]
    exact or_congr_right ⟨fun hy => hy.2 ▸ rfl, fun hy => ⟨hc.att, (Option.some.inj hy).symm⟩⟩
  · rw [if_neg heq]
    exact pushLoop_stepped hs mark rfl hlt he hrel

/-- `update_tag_if` stores the tag, or tries again. -/
theorem exchangeTag_stepped (hs : Shape h dropped ps order tgt) {op : TagOp} {p : Ptr Addr}
    (hc : CallInv h dropped order tgt x (.exchangeTag op p)) (fails : Bool) :
    ∃ tgt', Stepped h dropped ps order tgt x (.exchangeTag op p)
      ((Call.exchangeTag op p).step h x fails) order tgt' := by
  have ha : op.allowed p.tag = true := hc.state
  simp only [Call.step]
  -- The exchange changes the tag if the word is the one that was loaded.
  by_cases heq : h.link x = p ∧ ¬fails = true
  · rw [if_pos heq]
    obtain ⟨rfl, -⟩ := heq
    have hlive : h.isDeleted x = false := by
      rcases tag_of_allowed ha with htag | htag <;> simp [Heap.isDeleted, htag]
    have hdone : ∀ res, (Outcome.done (.updated op true) : Outcome Call Res) = .done res → ∀ y,
        y ∈ order ↔ y ∈ order ∨ returned res = some y := by
      intro res hres y
      cases hres
      exact (or_iff_left (fun hret => by cases hret)).symm
    cases op with
    | mark =>
      exact ⟨tgt, (List.append_nil ps).symm ▸ hs.retag hc.att hlive (.inr rfl),
        ext_setLink hc.att (isDeleted_setLive hlive (.inr rfl)), rfl, (by simp), hdone,
        .inl ⟨(by simp), isDeleted_setLive hlive (.inr rfl)⟩, (by simp)⟩
    | unmark =>
      exact ⟨tgt, (List.append_nil ps).symm ▸ hs.retag hc.att hlive (.inl rfl),
        ext_setLink hc.att (isDeleted_setLive hlive (.inl rfl)), rfl, (by simp), hdone,
        .inl ⟨(by simp), isDeleted_setLive hlive (.inl rfl)⟩, (by simp)⟩
    -- Here the entry is deleted: the links of the others lead past it.
    | deleteSelf =>
      have hkill := hs.kill hc.att hlive
      have hext : Ext _ _ _ _ tgt _ _ := ext_kill hc.att hlive
      have hdel := isDeleted_deleteSelf hlive
      rw [deleteSelf_eq hlive] at hkill hext hdel
      exact ⟨_, (List.append_nil ps).symm ▸ hkill, hext, rfl, (by simp), hdone,
        .inr ⟨rfl, hlive, hdel⟩, (by simp)⟩
  · rw [if_neg heq]
    exact ⟨tgt, tagLoop_stepped hs rfl⟩

/-- An access of `next_ptr`. -/
theorem nextPtr_stepped (hs : Shape h dropped ps order tgt) {call : NextPtr}
    (hc : CallInv h dropped order tgt x (.nextPtr call)) :
    Stepped h dropped ps order tgt x (.nextPtr call)
      ((call.step h).1, Call.ofNextPtr (call.step h).2) order tgt := by
  have hok := nextPtr_ok hs.heap hc.state
  refine .of_cleans hs (nextPtr_cleans hc.state hc.held) rfl (fun c' hc' => ?_) fun res hres => ?_
  · cases ho : (call.step h).2 with
    | running call' =>
      rw [ho] at hc' hok
      cases hc'
      exact ⟨rfl, fun y hy => nextPtr_holds ho hy, hok⟩
    | done p =>
      rw [ho] at hc'
      cases hc'
  · cases ho : (call.step h).2 with
    | running call' =>
      rw [ho] at hres
      cases hres
    | done p =>
      rw [ho] at hres
      cases hres
      exact ⟨rfl, nofun⟩

/-- An access of `next_shared`. -/
theorem nextShared_stepped (hs : Shape h dropped ps order tgt) {call : NextShared}
    (hc : CallInv h dropped order tgt x (.nextShared call)) :
    Stepped h dropped ps order tgt x (.nextShared call)
      ((call.step h).1, Call.ofNextShared (call.step h).2) order tgt := by
  -- The result of a clean-up is neither a push nor a deletion.
  have hres : ∀ {o : Outcome NextShared (Option Addr)} {res : Res},
      Call.ofNextShared o = .done res →
        returned res = none ∧ res ≠ .updated .deleteSelf true := by
    intro o res ho
    cases o with
    | running => cases ho
    | done p =>
      cases ho
      exact ⟨rfl, (by simp)⟩
  cases call with
  | nextPtr call =>
    obtain ⟨b, hcall⟩ := hc.state
    have hok := nextPtr_ok hs.heap hcall
    have hclean := nextPtr_cleans hcall hc.held
    -- The access belongs to `next_ptr`, which cleans up; the other one takes a handle.
    simp only [NextShared.step]
    split
    · rename_i h' call' heq
      rw [heq] at hclean hok
      refine .of_cleans hs hclean rfl (fun c' hc' => ?_) fun res => hres
      cases hc'
      have hrun : (call.step h).2 = .running call' := by rw [heq]
      exact ⟨rfl, fun y hy => nextPtr_holds hrun hy, b, hok⟩
    · rename_i h' p heq
      rw [heq] at hclean hok
      refine .of_cleans hs ?_ rfl (fun c' hc' => ?_) fun res => hres
      · split
        · exact hclean
        · exact hclean
      · split at hc'
        · cases hc'
        · cases hc'
          exact ⟨rfl, (fun _ hy => by cases hy), fun y hy => (hok.att y hy).1⟩
  -- The handle of the next entry is taken, or the entry was released, and the call begins anew.
  | getShared p =>
    simp only [NextShared.step]
    split
    · exact stepped_done hs rfl (by simp)
    · rename_i y hg hy
      refine stepped_running hs rfl (fun _ hy => by cases hy) ⟨y, ?_⟩
      exact callOk_start (hc.state y hy) False.elim
    · exact stepped_done hs rfl (by simp)

/-- An access of a call. -/
theorem call_stepped (hs : Shape h dropped ps order tgt) (hc : CallInv h dropped order tgt x c)
    (fails : Bool) :
    ∃ order' tgt', Stepped h dropped ps order tgt x c (c.step h x fails) order' tgt' := by
  cases c with
  | loadLink e mark =>
    obtain ⟨hlt, he⟩ := hc.entry e rfl
    have hst := pushLoop_stepped (c := .loadLink e mark) (x := x) hs mark rfl hlt he
      (hc.held e rfl)
    exact hst.imp fun order' hst => ⟨tgt, hst⟩
  | swapLink e mark p => exact ⟨order, tgt, swapLink_stepped hs hc fails⟩
  | attach e mark p =>
    obtain ⟨order', hst⟩ := attach_stepped hs hc fails
    exact ⟨order', tgt, hst⟩
  | loadTag op => exact ⟨order, tgt, tagLoop_stepped hs rfl⟩
  | exchangeTag op p =>
    obtain ⟨tgt', hst⟩ := exchangeTag_stepped hs hc fails
    exact ⟨order, tgt', hst⟩
  | nextPtr call => exact ⟨order, tgt, nextPtr_stepped hs hc⟩
  | nextShared call => exact ⟨order, tgt, nextShared_stepped hs hc⟩

end steps

/-! ## Runs -/

variable {w w' : World T n} {t t' : Fin n}

/-- The invariant of the system. -/
structure Inv (w : World T n) (order : List Addr) (tgt : Addr → Option Addr) : Prop where
  shape : Shape w.heap w.dropped (pushes w.history) order tgt
  shared : ∀ x, w.shared x = true ↔ x ∈ order
  calls : ∀ t x c, w.pc t = some (x, c) → CallInv w.heap w.dropped order tgt x c
  own : ∀ t t' x x' c c' e, w.pc t = some (x, c) → w.pc t' = some (x', c') → c.entry = some e →
    c'.entry = some e → t = t'

/-- There are no entries at first. -/
theorem inv_init : Inv (World.init : World T n) [] some where
  shape :=
    { heap :=
        { skip := ⟨fun _ _ => rfl, fun _ hx => (by cases hx)⟩
          dead := rfl
          tags := fun _ => nofun
          links := fun _ _ hx => (by cases hx)
          owned := fun _ _ _ hy => (by cases hy)
          fresh := fun _ _ => rfl
          bound := fun _ hx => (by cases hx)
          allocated := fun _ hx => (by cases hx)
          trans := fun _ _ _ => before_trans
          wf := before_wf _ _ _ }
      nodup := .nil
      unattached := fun _ _ => rfl
      leads := fun _ _ hy => (by cases hy)
      owned := fun _ _ _ hy => (by cases hy)
      released := fun _ hx => (by cases hx)
      mem := fun _ hp => (by cases hp)
      head := fun _ hx => (by cases hx)
      listed := fun _ hr => (by cases hr)
      lists := fun _ hr => (by cases hr) }
  shared _ := ⟨fun hx => (by cases hx), fun hx => (by cases hx)⟩
  calls _ _ _ hc := by cases hc
  own _ _ _ _ _ _ _ hc := by cases hc

/-- The pushes after a call has returned. -/
theorem pushes_concat (history : List (Event n)) (t : Fin n) (x : Addr) (res : Res) :
    pushes (history ++ [⟨t, x, res⟩]) = pushes history ++ pushedBy x (.done res) := by
  unfold pushes
  rw [List.filterMap_append]
  cases res <;> rfl

/-- The entries that are shared after a call has returned. -/
theorem share_eq (shared : Addr → Bool) (res : Res) (y : Addr) :
    World.share shared res y = true ↔ shared y = true ∨ returned res = some y := by
  have hupdate : ∀ e, Function.update shared e true y = true ↔ shared y = true ∨ some e = some y := by
    intro e
    by_cases hy : y = e
    · subst hy
      rw [Function.update_self]
      exact ⟨fun _ => .inr rfl, fun _ => rfl⟩
    · rw [Function.update_of_ne hy]
      exact (or_iff_left fun hc => hy (Option.some.inj hc).symm).symm
  cases res with
  | pushed e | rejected e => exact hupdate e
  | updated | nextPtr | nextShared => exact (or_iff_left nofun).symm

/-- The calls of the other threads, when one thread moves on. -/
theorem Inv.others (h : Inv w order tgt) {order' : List Addr} {tgt' : Addr → Option Addr}
    {c : Call} (hpc : w.pc t = some (x, c)) (he : Ext w.heap h' order order' tgt tgt' c.entry)
    (hrel : h'.released = w.heap.released) {t' : Fin n} {x' : Addr} {c' : Call} (ht : t' ≠ t)
    (hpc' : w.pc t' = some (x', c')) : CallInv h' w.dropped order' tgt' x' c' := by
  have hc' := h.calls t' x' c' hpc'
  refine hc'.later he (fun e hce hce' => ?_) hc'.kept fun y hy => ?_
  · exact ht (h.own t' t x' x c' c e hpc' hpc hce hce')
  · rw [hrel]
    exact hc'.held y hy

/-- A thread makes an access of its call. -/
theorem Inv.stepped (h : Inv w order tgt) {c : Call} (hpc : w.pc t = some (x, c)) {fails : Bool}
    {order' : List Addr} {tgt' : Addr → Option Addr}
    (hst : Stepped w.heap w.dropped (pushes w.history) order tgt x c (c.step w.heap x fails)
      order' tgt') : Inv (w.called t x (c.step w.heap x fails)) order' tgt' := by
  have hothers := fun {t' : Fin n} {x' : Addr} {c' : Call} (ht : t' ≠ t)
    (hpc' : w.pc t' = some (x', c')) => h.others hpc hst.ext hst.released ht hpc'
  generalize c.step w.heap x fails = r at hst hothers
  obtain ⟨h', o⟩ := r
  cases o with
  | running c' =>
    obtain ⟨rfl, hentry, hheld, hstate⟩ := hst.running c' rfl
    have hc := h.calls t x c hpc
    have hself : CallInv h' w.dropped order' tgt' x c' := by
      refine ⟨hc.att, hc.kept, fun y hy => ?_, fun e he => ?_, hstate⟩
      · rw [show h'.released = w.heap.released from hst.released]
        exact hheld y hy
      · obtain ⟨hlt, hnot⟩ := hc.entry e (hentry ▸ he)
        exact ⟨Nat.lt_of_lt_of_le hlt hst.ext.nextAddr, hnot⟩
    have hshape := hst.shape
    unfold pushedBy at hshape
    rw [List.append_nil] at hshape
    -- The entry of the call is the same as before.
    have hpcs : ∀ t' x' c'', (w.called t x (h', .running c')).pc t' = some (x', c'') →
        (t' = t ∧ x' = x ∧ c'' = c') ∨ t' ≠ t ∧ w.pc t' = some (x', c'') := by
      intro t' x' c'' hpc'
      by_cases ht : t' = t
      · subst ht
        change Function.update w.pc t' _ t' = _ at hpc'
        rw [Function.update_self] at hpc'
        cases hpc'
        exact .inl ⟨rfl, rfl, rfl⟩
      · change Function.update w.pc t _ t' = _ at hpc'
        rw [Function.update_of_ne ht] at hpc'
        exact .inr ⟨ht, hpc'⟩
    have hentries : ∀ t' x' c'', (w.called t x (h', .running c')).pc t' = some (x', c'') →
        ∃ x₀ c₀, w.pc t' = some (x₀, c₀) ∧ c₀.entry = c''.entry := by
      intro t' x' c'' hpc'
      rcases hpcs t' x' c'' hpc' with ⟨rfl, rfl, rfl⟩ | ⟨-, hpc'⟩
      · exact ⟨_, c, hpc, hentry.symm⟩
      · exact ⟨x', c'', hpc', rfl⟩
    refine ⟨hshape, h.shared, fun t' x' c'' hpc' => ?_, fun t₁ t₂ x₁ x₂ c₁ c₂ e h₁ h₂ he₁ he₂ => ?_⟩
    · rcases hpcs t' x' c'' hpc' with ⟨rfl, rfl, rfl⟩ | ⟨ht, hpc'⟩
      · exact hself
      · exact hothers ht hpc'
    · obtain ⟨y₁, d₁, hd₁, hed₁⟩ := hentries t₁ x₁ c₁ h₁
      obtain ⟨y₂, d₂, hd₂, hed₂⟩ := hentries t₂ x₂ c₂ h₂
      exact h.own t₁ t₂ y₁ y₂ d₁ d₂ e hd₁ hd₂ (hed₁.trans he₁) (hed₂.trans he₂)
  | done res =>
    have hpcs : ∀ t' x' c', (w.called t x (h', .done res)).pc t' = some (x', c') →
        t' ≠ t ∧ w.pc t' = some (x', c') := by
      intro t' x' c' hpc'
      change Function.update w.pc t none t' = _ at hpc'
      by_cases ht : t' = t
      · subst ht
        rw [Function.update_self] at hpc'
        cases hpc'
      · rw [Function.update_of_ne ht] at hpc'
        exact ⟨ht, hpc'⟩
    refine ⟨?_, fun y => ?_, fun t' x' c' hpc' => ?_, fun t₁ t₂ x₁ x₂ c₁ c₂ e h₁ h₂ => ?_⟩
    · show Shape h' w.dropped (pushes (w.history ++ [⟨t, x, res⟩])) order' tgt'
      rw [pushes_concat]
      exact hst.shape
    · show World.share w.shared res y = true ↔ _
      rw [share_eq, h.shared, hst.done res rfl]
    · obtain ⟨ht, hpc'⟩ := hpcs t' x' c' hpc'
      exact hothers ht hpc'
    · exact h.own t₁ t₂ x₁ x₂ c₁ c₂ e (hpcs t₁ x₁ c₁ h₁).2 (hpcs t₂ x₂ c₂ h₂).2

/-- A thread makes the next access of its call. -/
theorem Inv.called (h : Inv w order tgt) {c : Call} (hpc : w.pc t = some (x, c)) (fails : Bool) :
    ∃ order' tgt', Inv (w.called t x (c.step w.heap x fails)) order' tgt' := by
  obtain ⟨order', tgt', hst⟩ := call_stepped h.shape (h.calls t x c hpc) fails
  exact ⟨order', tgt', h.stepped hpc hst⟩

/-- An address that was not handed out is not in the order, and was not released. -/
theorem Inv.fresh (h : Inv w order tgt) :
    w.heap.nextAddr ∉ order ∧ w.heap.released w.heap.nextAddr = false := by
  refine ⟨fun hc => Nat.lt_irrefl _ (h.shape.heap.bound _ hc), ?_⟩
  by_contra hc
  exact Nat.lt_irrefl _ (h.shape.heap.allocated _ ((Bool.not_eq_false _).mp hc))

/-- A thread begins a call, with a new entry or without one. -/
theorem Inv.start (h : Inv w order tgt) {c : Call} (hpc : w.pc t = none)
    (hs : Shape h' w.dropped (pushes w.history) order tgt)
    (he : Ext w.heap h' order order tgt tgt none) (hrel : h'.released = w.heap.released)
    (hc : CallInv h' w.dropped order tgt x c)
    (hnew : ∀ e, c.entry = some e → w.heap.nextAddr ≤ e) :
    Inv ({ w with heap := h' }.goto t (some (x, c))) order tgt := by
  -- The thread `t` has the new call, and the others have theirs.
  have hpcs : ∀ t' x' c', ({ w with heap := h' }.goto t (some (x, c))).pc t' = some (x', c') →
      (t' = t ∧ x' = x ∧ c' = c) ∨ w.pc t' = some (x', c') := by
    intro t' x' c' hpc'
    change Function.update w.pc t _ t' = _ at hpc'
    by_cases ht : t' = t
    · subst ht
      rw [Function.update_self] at hpc'
      cases hpc'
      exact .inl ⟨rfl, rfl, rfl⟩
    · rw [Function.update_of_ne ht] at hpc'
      exact .inr hpc'
  have hold : ∀ {t' x' c' e}, w.pc t' = some (x', c') → c'.entry = some e → ¬w.heap.nextAddr ≤ e := by
    intro t' x' c' e hpc' he'
    exact Nat.not_le.mpr ((h.calls t' x' c' hpc').entry e he').1
  refine ⟨hs, h.shared, fun t' x' c' hpc' => ?_, fun t₁ t₂ x₁ x₂ c₁ c₂ e h₁ h₂ he₁ he₂ => ?_⟩
  · rcases hpcs t' x' c' hpc' with ⟨-, rfl, rfl⟩ | hpc'
    · exact hc
    · have hc' := h.calls t' x' c' hpc'
      refine hc'.later he nofun hc'.kept fun y hy => ?_
      show h'.released y = false
      rw [hrel]
      exact hc'.held y hy
  -- Two threads with one new entry are the same thread, since the entry was just created.
  · rcases hpcs t₁ x₁ c₁ h₁ with ⟨rfl, -, rfl⟩ | h₁' <;>
      rcases hpcs t₂ x₂ c₂ h₂ with ⟨rfl, -, rfl⟩ | h₂'
    · rfl
    · exact absurd (hnew e he₁) (hold h₂' he₂)
    · exact absurd (hnew e he₂) (hold h₁' he₁)
    · exact h.own t₁ t₂ x₁ x₂ c₁ c₂ e h₁' h₂' he₁ he₂

/-- A thread calls a method. -/
theorem Inv.invoke (h : Inv w order tgt) {op : Op T} (hpc : w.pc t = none) (hx : w.shared x = true)
    (hd : w.dropped x = false) : Inv (w.invoke t x op) order tgt := by
  have hatt := (h.shared x).mp hx
  cases op with
  | pushBack val mark =>
    obtain ⟨hnot, hrel⟩ := h.fresh
    refine h.start hpc (h.shape.create val) (ext_create val) rfl ⟨hatt, hd, ?_, ?_, trivial⟩ ?_
    · intro y hy
      cases hy
      exact hrel
    · intro e he
      cases he
      exact ⟨Nat.lt_succ_self _, hnot⟩
    · intro e he
      cases he
      exact Nat.le_refl _
  | updateTag op =>
    exact h.start hpc h.shape (.refl _ _ _ _) rfl ⟨hatt, hd, nofun, nofun, trivial⟩ nofun
  | nextPtr =>
    exact h.start hpc h.shape (.refl _ _ _ _) rfl
      ⟨hatt, hd, nofun, nofun, callOk_start hatt False.elim⟩ nofun
  | nextShared =>
    exact h.start hpc h.shape (.refl _ _ _ _) rfl
      ⟨hatt, hd, nofun, nofun, x, callOk_start hatt False.elim⟩ nofun

/-- An entry is created to be a head. -/
theorem Inv.create (h : Inv w order tgt) (val : T) :
    Inv { w with
      heap := w.heap.alloc val
      shared := Function.update w.shared w.heap.nextAddr true }
      (w.heap.nextAddr :: order) tgt := by
  obtain ⟨hnot, -⟩ := h.fresh
  refine ⟨(h.shape.create val).share hnot (Nat.lt_succ_self _), fun y => ?_, fun t x c hpc => ?_,
    h.own⟩
  · show Function.update w.shared _ true y = true ↔ _
    by_cases hy : y = w.heap.nextAddr
    · rw [hy, Function.update_self]
      exact iff_of_true rfl List.mem_cons_self
    · rw [Function.update_of_ne hy, h.shared, List.mem_cons]
      exact (or_iff_right hy).symm
  · have hc := h.calls t x c hpc
    have hc' : CallInv (w.heap.alloc val) w.dropped order tgt x c :=
      hc.later (ext_create val) nofun hc.kept hc.held
    refine hc'.later (ext_attach hnot) (fun e he heq => ?_) hc.kept hc.held
    obtain ⟨hlt, -⟩ := hc.entry e he
    rw [← Option.some.inj heq] at hlt
    exact Nat.lt_irrefl _ hlt

/-- An entry is released. -/
theorem Inv.release (h : Inv w order tgt) (hx : w.unowned x = true) :
    Inv { w with heap := w.heap.release x } order tgt := by
  unfold World.unowned at hx
  simp only [Bool.and_eq_true, decide_eq_true_eq, List.all_eq_true, List.mem_range,
    List.mem_finRange, true_implies] at hx
  obtain ⟨⟨hlt, hlinks⟩, hcalls⟩ := hx
  refine ⟨h.shape.release hlt fun y hy hn => ?_, h.shared, fun t x' c hpc => ?_, h.own⟩
  · have hylt : y < w.heap.nextAddr := by
      by_contra hge
      rw [next, h.shape.heap.fresh y (Nat.le_of_not_lt hge)] at hn
      cases hn
    have hlink := hlinks y hylt
    rw [hy, Bool.false_or, bne_iff_ne] at hlink
    exact hlink hn
  · have hc := h.calls t x' c hpc
    refine hc.later (ext_release x) (by simp) hc.kept fun y hy => ?_
    have hyx : y ≠ x := by
      rintro rfl
      have hheld := hcalls t
      rw [hpc, Option.all_some, bne_iff_ne] at hheld
      exact hheld hy
    show Function.update w.heap.released x true y = false
    rw [Function.update_of_ne hyx]
    exact hc.held y hy

/-- An entry is dropped. -/
theorem Inv.drop (h : Inv w order tgt) (hrel : w.heap.released x = true)
    (hx : w.unused x = true) :
    Inv { w with dropped := Function.update w.dropped x true } order tgt := by
  refine ⟨h.shape.drop hrel, h.shared, fun t x' c hpc => ?_, h.own⟩
  have hc := h.calls t x' c hpc
  refine hc.later (.refl _ _ _ none) nofun ?_ hc.held
  have hne : x' ≠ x := by
    have hall := List.all_eq_true.mp hx t (List.mem_finRange t)
    rw [hpc, Option.all_some, bne_iff_ne] at hall
    exact hall
  show Function.update w.dropped x true x' = false
  rw [Function.update_of_ne hne]
  exact hc.kept

/-- Every action keeps the invariant. -/
theorem Inv.step (h : Inv w order tgt) {a : Action T n} (hs : w.step a = some w') :
    ∃ order' tgt', Inv w' order' tgt' := by
  -- Only an access of a call changes links; the other actions create, begin, release or drop.
  cases a with
  | create val =>
    cases hs
    exact ⟨_, tgt, h.create val⟩
  | invoke t x op =>
    simp only [World.step] at hs
    split at hs
    · rename_i hcond
      cases hs
      exact ⟨order, tgt, h.invoke hcond.1 hcond.2.1 hcond.2.2⟩
    · cases hs
  | proceed t fails =>
    obtain ⟨⟨x, c⟩, hpc, rfl⟩ := Option.map_eq_some_iff.mp hs
    exact h.called hpc fails
  | release x =>
    simp only [World.step] at hs
    split at hs
    · rename_i hx
      cases hs
      exact ⟨order, tgt, h.release hx⟩
    · cases hs
  | drop x =>
    simp only [World.step] at hs
    split at hs
    · rename_i hx
      cases hs
      exact ⟨order, tgt, h.drop hx.1 hx.2⟩
    · cases hs

/-- The invariant holds in every run. -/
theorem inv_of_run {P : World T n → Action T n → Prop} (h : Run World.step P .init w) :
    ∃ order tgt, Inv w order tgt := by
  refine h.invariant (fun w => ∃ order tgt, Inv w order tgt) ⟨[], some, inv_init⟩ ?_
  rintro x a x' ⟨order, tgt, hinv⟩ _ hs
  exact hinv.step hs

/-! ## The result -/

/-- What an action does to the entries and to the history. -/
theorem step_effect (h : Inv w order tgt) {a : Action T n} (hs : w.step a = some w') :
    (w'.history = w.history ∧ w'.heap.isDeleted = w.heap.isDeleted) ∨
    ∃ t x res, w'.history = w.history ++ [⟨t, x, res⟩] ∧
      (res ≠ .updated .deleteSelf true ∧ w'.heap.isDeleted = w.heap.isDeleted ∨
        res = .updated .deleteSelf true ∧ w.heap.isDeleted x = false ∧
          w'.heap.isDeleted = Function.update w.heap.isDeleted x true) ∧
      ∀ e, res = .pushed e → w.heap.isDeleted x = false := by
  -- Only an access of a call can complete an operation.
  cases a with
  | create val =>
    cases hs
    exact .inl ⟨rfl, rfl⟩
  | invoke t x op =>
    simp only [World.step] at hs
    split at hs
    · cases hs
      cases op <;> exact .inl ⟨rfl, rfl⟩
    · cases hs
  | proceed t fails =>
    obtain ⟨⟨x, c⟩, hpc, rfl⟩ := Option.map_eq_some_iff.mp hs
    obtain ⟨order', tgt', hst⟩ := call_stepped h.shape (h.calls t x c hpc) fails
    have hdel := hst.deleted
    have halive := hst.alive
    show (w.called t x (c.step w.heap x fails)).history = _ ∧ _ ∨ _
    generalize c.step w.heap x fails = r at hdel halive
    obtain ⟨h', o⟩ := r
    cases o with
    | running c' =>
      rcases hdel with ⟨-, hdel⟩ | ⟨hc, -⟩
      · exact .inl ⟨rfl, hdel⟩
      · cases hc
    | done res =>
      refine .inr ⟨t, x, res, rfl, ?_, fun e he => halive e (congrArg Outcome.done he)⟩
      refine hdel.imp (fun hdel => ⟨fun hc => hdel.1 (congrArg Outcome.done hc), hdel.2⟩)
        fun ⟨hc, hdel⟩ => ⟨?_, hdel⟩
      cases hc
      rfl
  | release x =>
    simp only [World.step] at hs
    split at hs
    · cases hs
      exact .inl ⟨rfl, rfl⟩
    · cases hs
  | drop x =>
    simp only [World.step] at hs
    split at hs
    · cases hs
      exact .inl ⟨rfl, rfl⟩
    · cases hs

/-- `delete_self` on `x` has returned `true`. -/
def deletes (x : Addr) (ev : Event n) : Bool := ev.entry == x && ev.res == .updated .deleteSelf true

/-- The calls of `delete_self` that have returned `true`: one if the entry is deleted. -/
def Deletions (w : World T n) (x : Addr) : Prop :=
  w.history.countP (deletes x) = if w.heap.isDeleted x then 1 else 0

/-- An action keeps this number. -/
theorem Deletions.step (h : Inv w order tgt) {a : Action T n} (hs : w.step a = some w')
    (hd : Deletions w x) : Deletions w' x := by
  unfold Deletions at hd ⊢
  rcases step_effect h hs with ⟨hh, hdel⟩ | ⟨t, y, res, hh, hdel, -⟩
  · rw [hh, hdel, hd]
  · rw [hh, List.countP_append, hd, List.countP_singleton]
    rcases hdel with ⟨hres, hdel⟩ | ⟨rfl, hlive, hdel⟩
    · have hno : deletes x ⟨t, y, res⟩ = false := by
        unfold deletes
        rw [beq_eq_false_iff_ne.mpr hres, Bool.and_false]
      rw [hno, hdel]
      rfl
    · rw [hdel]
      by_cases hyx : y = x
      · subst hyx
        have hyes : deletes y (⟨t, y, .updated .deleteSelf true⟩ : Event n) = true := by
          simp [deletes]
        rw [hyes, hlive, Function.update_self]
        rfl
      · have hno : deletes x (⟨t, y, .updated .deleteSelf true⟩ : Event n) = false := by
          unfold deletes
          rw [beq_eq_false_iff_ne.mpr hyx, Bool.false_and]
        rw [hno, Function.update_of_ne (Ne.symm hyx)]
        rfl

/-- A call of `delete_self` on `x` returns `true` with an action if and only if the action
deletes `x`. -/
theorem deletes_iff (h : Inv w order tgt) {a : Action T n} (hs : w.step a = some w') :
    (∃ t, w'.history = w.history ++ [⟨t, x, .updated .deleteSelf true⟩]) ↔
      w.heap.isDeleted x = false ∧ w'.heap.isDeleted x = true := by
  rcases step_effect h hs with ⟨hh, hdel⟩ | ⟨t, y, res, hh, hdel, -⟩
  · rw [hh, hdel]
    refine iff_of_false (fun ⟨t, ht⟩ => ?_) fun ⟨hlive, hdead⟩ => ?_
    · exact absurd (congrArg List.length ht) (by simp)
    · rw [hlive] at hdead
      cases hdead
  · rw [hh]
    rcases hdel with ⟨hres, hdel⟩ | ⟨rfl, hlive, hdel⟩
    · rw [hdel]
      refine iff_of_false (fun ⟨t', ht⟩ => ?_) fun ⟨hlive, hdead⟩ => ?_
      · cases List.append_cancel_left ht
        exact hres rfl
      · rw [hlive] at hdead
        cases hdead
    · rw [hdel]
      constructor
      · rintro ⟨t', ht⟩
        cases List.append_cancel_left ht
        rw [Function.update_self]
        exact ⟨hlive, rfl⟩
      · rintro ⟨hx, hdead⟩
        by_cases hyx : x = y
        · subst hyx
          exact ⟨t, rfl⟩
        · rw [Function.update_of_ne hyx, hx] at hdead
          cases hdead

/-- The pushes on `x`. -/
def pushesOn (x : Addr) (w : World T n) : List (Addr × Addr) :=
  (pushes w.history).filter fun p => p.1 == x

/-- An action leaves a deleted entry deleted, and pushes nothing on it. -/
theorem deleted_step (h : Inv w order tgt) {a : Action T n} (hs : w.step a = some w')
    (hx : w.heap.isDeleted x = true) :
    w'.heap.isDeleted x = true ∧ pushesOn x w' = pushesOn x w := by
  unfold pushesOn
  rcases step_effect h hs with ⟨hh, hdel⟩ | ⟨t, y, res, hh, hdel, hpush⟩
  · rw [hh, hdel]
    exact ⟨hx, rfl⟩
  · rw [hh, pushes_concat, List.filter_append]
    constructor
    · rcases hdel with ⟨-, hdel⟩ | ⟨-, -, hdel⟩
      · rw [hdel]
        exact hx
      · rw [hdel]
        by_cases hyx : x = y
        · rw [hyx, Function.update_self]
        · rw [Function.update_of_ne hyx]
          exact hx
    · have hnil : (pushedBy y (.done res)).filter (fun p => p.1 == x) = [] := by
        cases res with
        | pushed e =>
          have hyx : y ≠ x := by
            rintro rfl
            rw [hpush e rfl] at hx
            cases hx
          simp [pushedBy, hyx]
        | rejected | updated | nextPtr | nextShared => rfl
      rw [hnil, List.append_nil]

/-- The entries that links lead to from an entry that was not dropped are not dropped. -/
theorem not_dropped_of_linked (hs : Shape h dropped ps order tgt) {l : List Addr}
    (hl : Linked (next h) (some r) l) (hr : dropped r = false) : ∀ y ∈ l, dropped y = false := by
  induction l generalizing r with
  | nil => nofun
  | cons a l ih =>
    obtain ⟨ha, hl⟩ := hl
    obtain rfl := Option.some.inj ha
    intro y hy
    rcases List.mem_cons.mp hy with rfl | hy
    · exact hr
    · cases hn : next h r with
      | none =>
        rw [hn] at hl
        rw [hl.eq_nil] at hy
        cases hy
      | some z =>
        rw [hn] at hl
        refine ih hl ?_ y hy
        by_contra hz
        have hrel := hs.released z ((Bool.not_eq_false _).mp hz)
        rw [hs.owned r z hr hn] at hrel
        cases hrel

/-- Deletion is final, and unlinking loses nothing. In every state that a run reaches:

* an entry whose link has the tag `Second` keeps it, and nothing is pushed on it any more;
* a call of `delete_self` returns `true` with exactly the action that sets the tag, and
  this happens once at most;
* an entry that was pushed is in the list of a head, and from each shared entry `r` on, the
  links lead to all undeleted entries of the list of `r`, in the order of the pushes. -/
theorem nothing_lost {w : World T n} (h : Run World.step (fun _ _ => True) .init w) :
    (∀ w' x, Run World.step (fun _ _ => True) w w' → (w.heap.link x).tag = .second →
      (w'.heap.link x).tag = .second ∧ pushesOn x w' = pushesOn x w) ∧
    (∀ a w' x, w.step a = some w' →
      ((∃ t, w'.history = w.history ++ [⟨t, x, .updated .deleteSelf true⟩]) ↔
        (w.heap.link x).tag ≠ .second ∧ (w'.heap.link x).tag = .second)) ∧
    (∀ x, w.history.countP (deletes x) ≤ 1) ∧
    (∀ p ∈ pushes w.history, ∃ r, w.shared r = true ∧
      r ∉ (pushes w.history).map Prod.snd ∧ p.2 ∈ listOf r (pushes w.history)) ∧
    (∀ r, w.shared r = true → (listOf r (pushes w.history)).Nodup ∧
      ∃ path, Linked (next w.heap) (some r) path ∧ path.Nodup ∧
        (undeleted w.heap (listOf r (pushes w.history))).Sublist path ∧
        (w.dropped r = false → ∀ y ∈ path, w.dropped y = false)) := by
  obtain ⟨order, tgt, hinv⟩ := inv_of_run h
  -- The tag of the link says whether an entry is deleted.
  have hsecond : ∀ {w : World T n} {order tgt} (x : Addr), Inv w order tgt →
      ((w.heap.link x).tag = .second ↔ w.heap.isDeleted x = true) := by
    intro w order tgt x hw
    refine ⟨fun htag => ?_, hw.shape.heap.tag_eq⟩
    unfold Heap.isDeleted
    rw [htag]
    rfl
  refine ⟨fun w' x hr hx => ?_, fun a w' x hs => ?_, fun x => ?_, fun p hp => ?_, fun r hr => ?_⟩
  -- A deleted entry stays deleted, and nothing is pushed behind it: an invariant of the rest of the
  -- run.
  · have hall : (∃ order tgt, Inv w' order tgt) ∧ w'.heap.isDeleted x = true ∧
        pushesOn x w' = pushesOn x w := by
      refine hr.invariant (fun w' => (∃ order tgt, Inv w' order tgt) ∧
        w'.heap.isDeleted x = true ∧ pushesOn x w' = pushesOn x w)
        ⟨⟨order, tgt, hinv⟩, (hsecond x hinv).mp hx, rfl⟩ ?_
      rintro y a y' ⟨⟨order, tgt, hy⟩, hdel, hpush⟩ _ hs
      obtain ⟨hdel', hpush'⟩ := deleted_step hy hs hdel
      exact ⟨hy.step hs, hdel', hpush'.trans hpush⟩
    obtain ⟨⟨order', tgt', hinv'⟩, hx', hpush⟩ := hall
    exact ⟨(hsecond x hinv').mpr hx', hpush⟩
  -- The call that deletes an entry is the one that returns `true`.
  · obtain ⟨order', tgt', hinv'⟩ := hinv.step hs
    rw [deletes_iff hinv hs, Ne, hsecond x hinv, hsecond x hinv', Bool.not_eq_true]
  -- So many `true` answers were given as the entry is deleted times, which is once at most.
  · have hall : (∃ order tgt, Inv w order tgt) ∧ Deletions w x := by
      refine h.invariant (fun w => (∃ order tgt, Inv w order tgt) ∧ Deletions w x)
        ⟨⟨_, _, inv_init⟩, rfl⟩ ?_
      rintro y a y' ⟨⟨order, tgt, hy⟩, hd⟩ _ hs
      exact ⟨hy.step hs, hd.step hy hs⟩
    rw [hall.2]
    split
    · exact Nat.le_refl 1
    · exact Nat.zero_le 1
  -- The list of a handle that was not itself pushed contains the entry.
  · obtain ⟨r, hr, hnot, hpr⟩ := hinv.shape.head p.2 (hinv.shape.mem p hp).2
    exact ⟨r, (hinv.shared r).mpr hr, hnot, hpr⟩
  -- The path from the handle passes the undeleted entries in the order of the pushes.
  · have hr := (hinv.shared r).mp hr
    obtain ⟨path, hpath, hd, -⟩ := exists_linked hinv.shape.heap hr
    obtain ⟨l, hl, -, hsub⟩ := hinv.shape.lists r hr
    rw [hl.unique (.of_linked hinv.shape.heap.skip hpath)] at hsub
    exact ⟨(hinv.shape.listed r hr).1, path, hpath, hd, hsub.trans List.filter_sublist,
      not_dropped_of_linked hinv.shape hpath⟩

/-- For the concrete run: a thread calls a method and makes `k` accesses. -/
def call (t : Fin 2) (x : Addr) (op : Op Unit) (k : Nat) : List (Action Unit 2) :=
  .invoke t x op :: List.replicate k (.proceed t false)

/-- Two entries are pushed on a head; the latter is deleted, and `next_ptr` unlinks it. -/
theorem nothing_lost_unlinked : ∃ w : World Unit 2, (w.heap.link 2).tag = .second ∧
    (w.heap.link 0).addr = some 1 ∧
    ∃ path, Linked (next w.heap) (some 0) path ∧ [0, 1].Sublist path := by
  have h : (exec World.step (fun _ _ => true) (World.init : World Unit 2) (.create () ::
      call 0 0 (.pushBack () false) 3 ++ call 0 0 (.pushBack () true) 3 ++
      call 0 2 (.updateTag .deleteSelf) 2 ++ call 1 0 .nextPtr 6)).any (fun w =>
        ((w.heap.link 2).tag == .second && (w.heap.link 0).addr == some 1) &&
        (w.shared 0 && undeleted w.heap (listOf 0 (pushes w.history)) == [0, 1])) = true := by
    decide
  obtain ⟨w, hw, h⟩ := Run.of_exec_any h
  simp only [Bool.and_eq_true, beq_iff_eq] at h
  obtain ⟨⟨htag, hlink⟩, hshared, hlist⟩ := h
  obtain ⟨-, -, -, -, hpath⟩ := nothing_lost (hw.mono fun _ _ _ => trivial)
  obtain ⟨-, path, hl, -, hsub, -⟩ := hpath 0 hshared
  exact ⟨w, htag, hlink, path, hl, hlist ▸ hsub⟩

end Sdd.Proofs.SharedList
