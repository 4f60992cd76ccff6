import Sdd.Proofs.Queue.Answers

/-!
# `Sdd.Proofs.Queue.Fifo`: the queue is linearizable

`Fifo.Step` is a sequential queue: `push_if` compares with the last entry and appends one,
`pop_if` and `peek` read the first one. `Lin w st` says that the history of the queue becomes
a run of the sequential queue when effects are added, that this run ends with the entries
that the queue has, and that it leaves each thread `t` in the status `st t`.

`status` is the status that a thread has at each place. A push takes effect when its entry
is attached, and a pop when the entry is deleted. The other operations take effect with the
access that returns, or sees that `oldest` is null, with one exception: a thread that itself
has set `oldest` to null has found the queue empty then, and resets `newest` before it
returns. `lin_step` follows the functions of the model once more, and `queue_linearizable`
is the result for runs of `push`, `pop_if` and `peek`.
-/

set_option autoImplicit false

namespace Sdd.Proofs.Queue

open Sdd.Lib Sdd.Lib.Linearize Sdd.Queue

variable {T : Type} {n : Nat}

/-- A sequential queue: all the entries pushed, and those in it with their instances, the
oldest first. -/
structure Fifo (T : Type) where
  pushed : List Addr
  queue : List (Addr × T)

namespace Fifo

inductive Step (q : Fifo T) : Op T → Res → Fifo T → Prop where
  | push (val : T) (cond : Option T → Bool) (e : Addr) (he : e ∉ q.pushed)
      (h : cond (q.queue.getLast?.map Prod.snd) = true) :
      Step q (.pushIf val cond) (.pushed e) ⟨q.pushed ++ [e], q.queue ++ [(e, val)]⟩
  | reject (val : T) (cond : Option T → Bool)
      (h : cond (q.queue.getLast?.map Prod.snd) = false) :
      Step q (.pushIf val cond) .rejected q
  | empty (cond : T → Bool) (h : q.queue = []) : Step q (.popIf cond) (.popped none) q
  | pop (cond : T → Bool) (e : Addr) (x : T) (rest : List (Addr × T))
      (hq : q.queue = (e, x) :: rest) (h : cond x = true) :
      Step q (.popIf cond) (.popped (some e)) ⟨q.pushed, rest⟩
  | refuse (cond : T → Bool) (e : Addr) (x : T) (rest : List (Addr × T))
      (hq : q.queue = (e, x) :: rest) (h : cond x = false) :
      Step q (.popIf cond) (.refused e) q
  | peek : Step q .peek (.peeked (q.queue.head?.map Prod.fst)) q

/-- The entries that the pops of a run have returned, in this order. -/
def popped (L : List (Event (Fin n) (Op T) Res)) : List Addr :=
  L.filterMap fun
    | .effect _ _ (.popped e) => e
    | _ => none

/-- The pops of a sequential queue return the entries in the order in which they were
pushed, each one once, and the other entries are in the queue. -/
theorem popped_append {L : List (Event (Fin n) (Op T) Res)} {c : Config (Fin n) (Op T) Res (Fifo T)}
    (h : Trace Step (.start ⟨[], []⟩) L c) :
    popped L ++ c.state.queue.map Prod.fst = c.state.pushed := by
  induction h with
  | nil => rfl
  | @snoc L c₁ c₂ e h hm ih =>
    unfold popped at ih ⊢
    -- By cases of the event added at the end: only a push adds to the one side, only a pop moves
    -- from the other.
    rw [List.filterMap_append]
    cases hm with
    | invoke t op ht => simpa using ih
    | result t op res ht => simpa using ih
    | effect t op res s ht hs =>
      cases hs with
      | push val cond e he hcond =>
        simp only [List.filterMap_cons_none, List.filterMap_nil, List.append_nil, List.map_append,
          List.map_cons, List.map_nil, ← List.append_assoc]
        rw [ih]
      | reject val cond hcond => simpa using ih
      | empty cond hq => simpa using ih
      | pop cond e x rest hq hcond =>
        rw [hq] at ih
        simpa using ih
      | refuse cond e x rest hq hcond => simpa using ih
      | peek => simpa using ih

end Fifo

/-- The operations with a place in a sequential queue at which they take effect. -/
def Plain : Op T → Prop
  | .pushIf _ cond => ∀ o, cond o = true
  | .popIf _ | .peek => True
  | .isEmpty | .iter => False

/-- The status of a thread that cleans up. -/
def cleanStatus : Clean T → Status (Op T) Res
  | .popped cond e => .decided (.popIf cond) (.popped (some e))
  | k => .pending k.op

/-- The status of a thread. -/
def status : Pc T → Status (Op T) Res
  | .idle | .drop _ => .idle
  | .loadNewest p | .loadOldest p | .traverse p _ _ | .attach p _ _ =>
    .pending (.pushIf p.val p.cond)
  | .swapNewest p e | .checkOldest p e | .resetNewest p e =>
    .decided (.pushIf p.val p.cond) (.pushed e)
  | .cleanLoad k | .cleanDeleted k _ | .cleanNext k _ _ | .cleanExchange k _ _ => cleanStatus k
  -- The thread has set `oldest` to null.
  | .cleanReset (.retry cond) => .decided (.popIf cond) (.popped none)
  | .cleanReset .peek => .decided .peek (.peeked none)
  | .cleanReset k => cleanStatus k
  | .popLoad cond | .popGetShared cond _ | .popDeleted cond _ | .popDelete cond _ =>
    .pending (.popIf cond)
  | .peekLoad | .peekDeleted _ => .pending .peek
  | .isEmpty => .pending .isEmpty

/-- The sequential queue has the entries of the queue. -/
structure Same (w : World T n) (q : Fifo T) : Prop where
  pushed : q.pushed = w.attached
  queue : q.queue.map Prod.fst = w.contents
  value : ∀ e x, (e, x) ∈ q.queue → w.heap.value e = some x

/-- The history is linearizable, with the threads in the status `st`. -/
structure Lin (w : World T n) (st : Fin n → Status (Op T) Res) : Prop where
  trace : ∃ L q, Trace Fifo.Step (.start ⟨[], []⟩) L ⟨st, q⟩ ∧
    L.filter Event.visible = w.history ∧ Same w q
  plain : ∀ t op, (st t = .pending op ∨ ∃ res, st t = .decided op res) → Plain op

/-- The thread `t` has the status `s`, and the others the one of their place. -/
def here (w : World T n) (t : Fin n) (s : Status (Op T) Res) : Fin n → Status (Op T) Res :=
  Function.update (fun u => status (w.pc u)) t s

section lin

variable {w w' : World T n} {tgt : Addr → Option Addr} {t : Fin n}
  {st : Fin n → Status (Op T) Res} {op : Op T} {res : Res} {s : Status (Op T) Res}

/-- A write that the sequential queue does not see. -/
theorem Lin.silent (h : Lin w st) (hhist : w'.history = w.history)
    (hsame : ∀ q, Same w q → Same w' q) : Lin w' st := by
  refine ⟨?_, h.plain⟩
  obtain ⟨L, q, htrace, hL, hq⟩ := h.trace
  exact ⟨L, q, htrace, hL.trans hhist.symm, hsame q hq⟩

/-- The operation of the thread takes effect. -/
theorem Lin.effect (h : Lin w st) (ht : st t = .pending op) (hhist : w'.history = w.history)
    (hstep : ∀ q, Same w q → ∃ q', Fifo.Step q op res q' ∧ Same w' q') :
    Lin w' (Function.update st t (.decided op res)) := by
  constructor
  · obtain ⟨L, q, htrace, hL, hq⟩ := h.trace
    obtain ⟨q', hs, hq'⟩ := hstep q hq
    -- The effect is put behind the trace, where the ideal queue is what the world's queue is.
    refine ⟨L ++ [.effect t op res], q', .snoc _ htrace (.effect t op res q' ht hs), ?_, hq'⟩
    rw [visible_insert, List.append_nil, hL, hhist]
  · intro u op' hu
    by_cases hut : u = t
    · rw [hut, Function.update_self] at hu
      rcases hu with hu | ⟨res', hu⟩
      · cases hu
      · cases hu
        exact h.plain t op (.inl ht)
    · rw [Function.update_of_ne hut] at hu
      exact h.plain u op' hu

/-- The call of the thread returns. -/
theorem Lin.finish (h : Lin w (here w t (.decided op res))) :
    Lin (w.finish t op res) fun u => status ((w.finish t op res).pc u) := by
  -- A call that returns leaves its thread idle, as the ideal machine does.
  have hst : (fun u => status ((w.finish t op res).pc u)) = here w t .idle := by
    funext u
    show status (Function.update w.pc t .idle u) = here w t .idle u
    unfold here
    by_cases hu : u = t
    · rw [hu, Function.update_self, Function.update_self]
      rfl
    · rw [Function.update_of_ne hu, Function.update_of_ne hu]
  have hidle : here w t .idle = Function.update (here w t (.decided op res)) t .idle := by
    unfold here
    rw [Function.update_idem]
  have ht : here w t (.decided op res) t = .decided op res := Function.update_self t _ _
  rw [hst, hidle]
  constructor
  · obtain ⟨L, q, htrace, hL, hq⟩ := h.trace
    -- The event of the return is the only one of the step that can be seen.
    refine ⟨L ++ [.result t op res], q, .snoc _ htrace (.result t op res ht), ?_,
      hq.pushed, hq.queue, hq.value⟩
    rw [List.filter_append, hL]
    rfl
  · intro u op' hu
    by_cases hut : u = t
    · rw [hut, Function.update_self] at hu
      rcases hu with hu | ⟨res', hu⟩
      · cases hu
      · cases hu
    · rw [Function.update_of_ne hut] at hu
      exact h.plain u op' hu

/-- The thread goes to its next place. -/
theorem Lin.goto {pc : Pc T} (h : Lin w (here w t (status pc))) :
    Lin (w.goto t pc) fun u => status ((w.goto t pc).pc u) := by
  have hst : (fun u => status ((w.goto t pc).pc u)) = here w t (status pc) := by
    funext u
    show status (Function.update w.pc t pc u) = here w t (status pc) u
    unfold here
    by_cases hu : u = t
    · rw [hu, Function.update_self, Function.update_self]
    · rw [Function.update_of_ne hu, Function.update_of_ne hu]
  rw [hst]
  exact h.silent rfl fun q hq => ⟨hq.pushed, hq.queue, hq.value⟩

/-- The status of a thread is the one of its place. -/
theorem Lin.take (h : Lin w fun u => status (w.pc u)) (t : Fin n) :
    Lin w (here w t (status (w.pc t))) := by
  unfold here
  rw [Function.update_eq_self]
  exact h

/-- The operation of the thread reads the queue, and takes effect. -/
theorem Lin.read (h : Lin w (here w t (.pending op)))
    (hstep : ∀ q, Same w q → Fifo.Step q op res q) : Lin w (here w t (.decided op res)) := by
  have ht : here w t (.pending op) t = .pending op := Function.update_self t _ _
  have hread : Lin w (Function.update (here w t (.pending op)) t (.decided op res)) :=
    h.effect ht rfl fun q hq => ⟨q, hstep q hq, hq⟩
  unfold here at hread ⊢
  rw [Function.update_idem] at hread
  exact hread

/-- The sequential queue is empty when the queue is. -/
theorem Same.queue_nil {q : Fifo T} (hq : Same w q) (hnil : w.contents = []) : q.queue = [] := by
  rw [← List.map_eq_nil_iff, hq.queue]
  exact hnil

/-- The first entry of the sequential queue. -/
theorem Same.queue_cons {q : Fifo T} {x : Addr} (hq : Same w q) (hx : w.contents.head? = some x) :
    ∃ v rest, q.queue = (x, v) :: rest ∧ w.heap.value x = some v ∧
      w.contents = x :: rest.map Prod.fst := by
  -- The ideal queue and the contents have one list of addresses, so the heads agree.
  cases hqueue : q.queue with
  | nil =>
    rw [← hq.queue, hqueue] at hx
    cases hx
  | cons head rest =>
    obtain ⟨y, v⟩ := head
    have hcontents : y :: rest.map Prod.fst = w.contents := by
      rw [← hq.queue, hqueue]
      rfl
    have hyx : y = x := by
      rw [← hcontents] at hx
      exact Option.some.inj hx
    subst hyx
    refine ⟨v, rest, rfl, hq.value y v ?_, hcontents.symm⟩
    rw [hqueue]
    exact List.mem_cons_self

/-- A write that leaves the entries and their instances. -/
theorem Same.congr {q : Fifo T} (hq : Same w q) (hs : Shared w tgt)
    (hatt : w'.attached = w.attached) (hcont : w'.contents = w.contents)
    (hval : ∀ x, x < w.heap.nextAddr → w'.heap.value x = w.heap.value x) : Same w' q where
  pushed := hq.pushed.trans hatt.symm
  queue := hq.queue.trans hcont.symm
  value e x he := by
    have hmem : e ∈ w.contents := by
      rw [← hq.queue]
      exact List.mem_map_of_mem he
    rw [hval e (hs.heap.bound e (Shared.mem_contents.mp hmem).1)]
    exact hq.value e x he

/-- The sequential queue does not see a clean-up. -/
theorem Lin.clean (h : Lin w st) (hs : Shared w tgt) {h' : Heap T}
    (hc : Cleans (view w tgt) w.heap h') : Lin { w with heap := h' } st := by
  refine h.silent rfl fun q hq => hq.congr hs rfl (contents_eq hc.isDeleted_eq) fun x _ => ?_
  rw [← hc.fields.1]

end lin

section walk

variable {w w' : World T n} {tgt : Addr → Option Addr} {t : Fin n} {p : Push T} {k : Clean T}
  {o : Option Addr}

/-- The condition of a plain push holds. -/
theorem evaluate_lin (h : Lin w (here w t (.pending (.pushIf p.val p.cond)))) (hs : Shared w tgt) :
    Lin (w.evaluate t p o) fun u => status ((w.evaluate t p o).pc u) := by
  have hplain : ∀ o, p.cond o = true :=
    h.plain t (.pushIf p.val p.cond) (.inl (Function.update_self t _ _))
  unfold World.evaluate
  rw [if_pos (hplain _)]
  split
  · exact Lin.goto h
  · have hext : Ext w { w with heap := w.heap.alloc p.val } tgt tgt none := ext_create p.val
    have h' : Lin { w with heap := w.heap.alloc p.val }
        (here w t (.pending (.pushIf p.val p.cond))) :=
      h.silent rfl fun q hq => hq.congr hs rfl rfl hext.value
    exact Lin.goto h'

theorem traverse_lin (h : Lin w (here w t (.pending (.pushIf p.val p.cond)))) (hs : Shared w tgt) :
    Lin (w.traverse t p o) fun u => status ((w.traverse t p o).pc u) := by
  unfold World.traverse
  split
  · exact evaluate_lin h hs
  · exact Lin.goto h

theorem traversed_lin (h : Lin w (here w t (.pending (.pushIf p.val p.cond)))) (hs : Shared w tgt)
    {current : Addr} {out : Outcome NextPtr (Ptr Addr)} :
    Lin (w.traversed t p current out) fun u => status ((w.traversed t p current out).pc u) := by
  unfold World.traversed
  split
  · exact Lin.goto h
  · split
    · exact evaluate_lin h hs
    · exact Lin.goto h

/-- `pop_if` returns `None` when the queue is empty. -/
theorem popIf_lin {cond : T → Bool} (h : Lin w (here w t (.pending (.popIf cond))))
    (ho : o = none → w.contents = []) :
    Lin (w.popIf t cond o) fun u => status ((w.popIf t cond o).pc u) := by
  unfold World.popIf
  split
  · exact Lin.finish (h.read fun q hq => .empty cond (hq.queue_nil (ho rfl)))
  · exact Lin.goto h

/-- A sequential queue returns its first entry to `peek`. -/
theorem Same.peek {q : Fifo T} {x : Option Addr} (hq : Same w q) (hx : w.contents.head? = x) :
    Fifo.Step q .peek (.peeked x) q := by
  have hhead : q.queue.head?.map Prod.fst = x := by
    rw [← hx, ← hq.queue, List.head?_map]
  rw [← hhead]
  exact .peek

/-- `peek` returns `None` when the queue is empty. -/
theorem peek_lin (h : Lin w (here w t (.pending .peek))) (ho : o = none → w.contents = []) :
    Lin (w.peek t o) fun u => status ((w.peek t o).pc u) := by
  unfold World.peek
  split
  · refine Lin.finish (h.read fun q hq => hq.peek ?_)
    rw [ho rfl]
    rfl
  · exact Lin.goto h

/-- `cleanup_oldest` returns. -/
theorem cleaned_lin (h : Lin w (here w t (cleanStatus k))) (hs : Shared w tgt)
    (ho : o = none → w.contents = []) :
    Lin (w.cleaned t k o) fun u => status ((w.cleaned t k o).pc u) := by
  unfold World.cleaned
  cases k with
  | popped cond e => exact Lin.finish h
  | retry cond => exact popIf_lin h ho
  | peek => exact peek_lin h ho
  | push p => exact traverse_lin h hs
  | iter => exact absurd (h.plain t .iter (.inl (Function.update_self t _ _))) id

end walk

section step

variable {w w' : World T n} {tgt : Addr → Option Addr} {t : Fin n}

/-- A push takes effect when its entry is attached. -/
theorem attach_lin (h : Inv w tgt) (hl : Lin w fun u => status (w.pc u)) {p : Push T} {e : Addr}
    {newest : Option Addr} (hpc : w.pc t = .attach p e newest) :
    Lin (w.attach t p e newest) fun u => status ((w.attach t p e newest).pc u) := by
  have hok := h.ok t
  rw [hpc] at hok
  obtain ⟨hp, hentry, hmem, -⟩ := hok
  -- The entry is private so far: it is in no contents, and it holds the value of the call.
  obtain ⟨-, hnot, hval⟩ := hp e hentry
  have ht := hl.take t
  rw [hpc] at ht
  change Lin w (here w t (.pending (.pushIf p.val p.cond))) at ht
  have hself : here w t (.pending (.pushIf p.val p.cond)) t = .pending (.pushIf p.val p.cond) :=
    Function.update_self t _ _
  have hplain : ∀ o, p.cond o = true := ht.plain t (.pushIf p.val p.cond) (.inl hself)
  -- A push takes effect when its entry is attached, whichever of the two exchanges does it.
  have heffect : ∀ w' : World T n, w'.pc = w.pc → w'.history = w.history →
      w'.attached = w.attached ++ [e] → w'.contents = w.contents ++ [e] →
      w'.heap.value = w.heap.value →
      Lin (w'.goto t (.swapNewest p e)) fun u => status ((w'.goto t (.swapNewest p e)).pc u) := by
    intro w' hpc' hhist hatt hcont hvalue
    refine Lin.goto ?_
    have hdone : Lin w' (Function.update
        (here w t (.pending (.pushIf p.val p.cond))) t
          (.decided (.pushIf p.val p.cond) (.pushed e))) := by
      refine ht.effect hself hhist fun q hq => ?_
      refine ⟨⟨q.pushed ++ [e], q.queue ++ [(e, p.val)]⟩, .push p.val p.cond e ?_ (hplain _), ?_⟩
      · rw [hq.pushed]
        exact hnot
      · refine ⟨?_, ?_, ?_⟩
        · rw [hatt, hq.pushed]
        · rw [hcont, List.map_append, hq.queue]
          rfl
        · intro e' x hmem
          rw [hvalue]
          rcases List.mem_append.mp hmem with hmem | hmem
          · exact hq.value e' x hmem
          · cases List.mem_singleton.mp hmem
            exact hval
    unfold here at hdone ⊢
    rw [Function.update_idem] at hdone
    rw [hpc']
    exact hdone
  -- The exchange on the link of the last entry, or on oldest where the list was empty.
  unfold World.attach
  split
  · rename_i l
    split
    · rename_i hnull
      exact heffect _ rfl rfl rfl (contents_attachNewest h.shared hnot hnull) rfl
    · split
      · exact Lin.goto ht
      · split
        · exact Lin.goto ht
        · exact traverse_lin ht h.shared
  · split
    · exact heffect _ rfl rfl rfl (contents_attach h.shared hnot) rfl
    · exact traverse_lin ht h.shared

/-- A pop takes effect when the first entry is deleted. -/
theorem popDelete_lin (h : Inv w tgt) (hl : Lin w fun u => status (w.pc u)) {cond : T → Bool}
    {x : Addr} (hpc : w.pc t = .popDelete cond x) :
    Lin (w.popDelete t cond x) fun u => status ((w.popDelete t cond x).pc u) := by
  have hok := h.ok t
  rw [hpc] at hok
  obtain ⟨hmem, hold, hcond⟩ := hok
  have ht := hl.take t
  rw [hpc] at ht
  change Lin w (here w t (.pending (.popIf cond))) at ht
  unfold World.popDelete
  -- An entry that is live is deleted by this step, and that is where the pop takes effect.
  cases hlive : w.heap.isDeleted x with
  | false =>
    have hcont := contents_kill h.shared hmem hlive
    have hvalue : (w.heap.value x).any cond = true := by
      rcases hcond with hdead | hvalue
      · rw [hlive] at hdead
        cases hdead
      · exact hvalue
    rw [deleteSelf_eq hlive] at hcont ⊢
    refine Lin.goto ?_
    have hself : here w t (.pending (.popIf cond)) t = .pending (.popIf cond) :=
      Function.update_self t _ _
    have hdone : Lin { w with heap := w.heap.setLink x ((w.heap.link x).withTag .second) }
        (Function.update (here w t (.pending (.popIf cond))) t
          (.decided (.popIf cond) (.popped (some x)))) := by
      refine ht.effect hself rfl fun q hq => ?_
      -- The entry the traversal from oldest ends at is the first one of the contents.
      obtain ⟨v, rest, hqueue, hv, hrest⟩ := hq.queue_cons (h.shared.head_of_old hold hlive)
      rw [hv] at hvalue
      refine ⟨⟨q.pushed, rest⟩, .pop cond x v rest hqueue hvalue, hq.pushed, ?_, ?_⟩
      · rw [hcont, hrest, List.erase_cons_head]
      · intro e y he
        refine hq.value e y ?_
        rw [hqueue]
        exact List.mem_cons_of_mem _ he
    unfold here at hdone ⊢
    rw [Function.update_idem] at hdone
    exact hdone
  -- An entry that another pop has deleted: the call goes on with the next one.
  | true =>
    rw [deleteSelf_dead hlive]
    exact Lin.goto ht

/-- `pop_if` refuses the first entry. -/
theorem popDeleted_lin (h : Inv w tgt) (hl : Lin w fun u => status (w.pc u)) {cond : T → Bool}
    {x : Addr} (hpc : w.pc t = .popDeleted cond x) :
    Lin (w.popDeleted t cond x) fun u => status ((w.popDeleted t cond x).pc u) := by
  have hok := h.ok t
  rw [hpc] at hok
  have ht := hl.take t
  rw [hpc] at ht
  change Lin w (here w t (.pending (.popIf cond))) at ht
  unfold World.popDeleted
  split
  -- The refusal is read off the first entry, live at this moment.
  · rename_i hc
    rw [Bool.and_eq_true, Bool.not_eq_true', Bool.not_eq_true'] at hc
    refine Lin.finish (ht.read fun q hq => ?_)
    obtain ⟨v, rest, hqueue, hv, -⟩ := hq.queue_cons (h.shared.head_of_old hok.2 hc.1)
    rw [hv] at hc
    exact .refuse cond x v rest hqueue hc.2
  · exact Lin.goto ht

/-- The compare-and-exchange on `oldest`: the queue is empty when null is stored or found. -/
theorem cleanExchange_lin (h : Inv w tgt) (hl : Lin w fun u => status (w.pc u)) {k : Clean T}
    {x : Addr} {next : Option Addr} (hpc : w.pc t = .cleanExchange k x next) :
    Lin (w.cleanExchange t k x next) fun u => status ((w.cleanExchange t k x next).pc u) := by
  have hok := h.ok t
  rw [hpc] at hok
  obtain ⟨-, -, hdead, hret⟩ := hok
  have ht := hl.take t
  rw [hpc] at ht
  change Lin w (here w t (cleanStatus k)) at ht
  unfold World.cleanExchange
  split
  · rename_i hold
    have ht' : Lin { w with oldest := next } (here w t (cleanStatus k)) :=
      ht.silent rfl fun q hq => ⟨hq.pushed, hq.queue, hq.value⟩
    split
    · -- The entry that `oldest` refers to is deleted, and nothing is behind it.
      have hnil : w.contents = [] := by
        refine h.shared.contents_nil ?_
        rw [hold]
        exact (hret.tgt trivial).symm
      refine Lin.goto ?_
      -- The five calls that clean up differ in what an empty queue means to them.
      cases k with
      | popped cond e => exact ht'
      | retry cond => exact ht'.read fun q hq => .empty cond (hq.queue_nil hnil)
      | peek =>
        refine ht'.read fun q hq => hq.peek ?_
        have hnil' : World.contents { w with oldest := none } = [] := hnil
        rw [hnil']
        rfl
      | push p => exact ht'
      | iter => exact ht'
    · rename_i y
      -- What next_shared returned leads to the same live entry as the deleted one that oldest left.
      have hs : Shared { w with oldest := some y } tgt := by
        refine h.shared.setOldest (fun z hz => ?_) ?_
        · refine ⟨(hret.att z hz).1, h.held t z ?_⟩
          rw [hpc, Pc.holds, hz]
          simp
        · rw [hold]
          exact hret.tgt trivial
      exact cleaned_lin ht' hs fun hc => by cases hc
  -- The exchange failed: the loop starts over from what oldest is now.
  · exact cleaned_lin ht h.shared fun hold => h.shared.contents_nil (by rw [hold]; rfl)

/-- A step of a call keeps the history linearizable. -/
theorem proceed_lin (h : Inv w tgt) (hl : Lin w fun u => status (w.pc u))
    (hw : w.proceed t = some w') : Lin w' fun u => status (w'.pc u) := by
  have hok := h.ok t
  have ht := hl.take t
  unfold World.proceed at hw
  cases hpc : w.pc t with
  | idle =>
    rw [hpc] at hw
    cases hw
  | loadNewest p =>
    rw [hpc] at hw ht
    simp only at hw
    split at hw
    · cases hw
      exact Lin.goto ht
    · cases hw
      exact traverse_lin ht h.shared
  | loadOldest p =>
    rw [hpc] at hw ht
    cases hw
    exact traverse_lin ht h.shared
  | traverse p current call =>
    rw [hpc] at hw ht hok
    cases hw
    -- next_ptr only takes deleted entries out of the chain, which changes nothing the ideal queue
    -- sees.
    have hclean := nextPtr_cleans hok.2.2 fun x hx => h.held t x (by rw [hpc]; simp [Pc.holds, hx])
    have hs := h.shared.clean hclean
    have ht' : Lin { w with heap := (call.step w.heap).1 }
        (here w t (.pending (.pushIf p.val p.cond))) :=
      ht.clean h.shared hclean
    exact traversed_lin ht' hs
  | attach p e newest =>
    rw [hpc] at hw
    cases hw
    exact attach_lin h hl hpc
  | swapNewest p e =>
    rw [hpc] at hw ht
    cases hw
    exact Lin.goto (ht.silent rfl fun q hq => ⟨hq.pushed, hq.queue, hq.value⟩)
  | checkOldest p e =>
    rw [hpc] at hw ht
    simp only at hw
    split at hw
    · cases hw
      exact Lin.goto ht
    · cases hw
      -- The call returns what it decided when its entry was attached.
      exact Lin.finish ht
  | resetNewest p e =>
    rw [hpc] at hw ht
    cases hw
    exact Lin.finish (ht.silent rfl fun q hq => ⟨hq.pushed, hq.queue, hq.value⟩)
  | cleanLoad k =>
    rw [hpc] at hw ht
    simp only at hw
    split at hw
    · rename_i hold
      cases hw
      exact cleaned_lin ht h.shared fun _ => h.shared.contents_nil (by rw [hold]; rfl)
    · cases hw
      exact Lin.goto ht
  | cleanDeleted k x =>
    rw [hpc] at hw ht
    simp only at hw
    split at hw
    · cases hw
      exact Lin.goto ht
    · cases hw
      exact cleaned_lin ht h.shared fun hc => by cases hc
  | cleanNext k x call =>
    rw [hpc] at hw ht hok
    cases hw
    obtain ⟨-, -, -, hcall⟩ := hok
    -- The same for the walk that looks for the entry to put in oldest.
    have hclean := nextShared_cleans hcall fun y hy => h.held t y (by rw [hpc]; simp [Pc.holds, hy])
    have ht' : Lin { w with heap := (call.step w.heap).1 } (here w t (cleanStatus k)) :=
      ht.clean h.shared hclean
    unfold World.cleanNext
    split
    · exact Lin.goto ht'
    · exact Lin.goto ht'
  | cleanExchange k x next =>
    rw [hpc] at hw
    cases hw
    exact cleanExchange_lin h hl hpc
  | cleanReset k =>
    rw [hpc] at hw ht
    cases hw
    have ht' : Lin { w with newest := none } (here w t (status (.cleanReset k))) :=
      ht.silent rfl fun q hq => ⟨hq.pushed, hq.queue, hq.value⟩
    -- The contents are read from oldest, so a null newest does not change them.
    have hs : Shared { w with newest := none } tgt := h.shared.setNewest fun x hx => by cases hx
    unfold World.cleaned
    cases k with
    | popped cond e => exact Lin.finish ht'
    | retry cond => exact Lin.finish ht'
    | peek => exact Lin.finish ht'
    | push p => exact traverse_lin ht' hs
    | iter => exact absurd (ht'.plain t .iter (.inl (Function.update_self t _ _))) id
  | popLoad cond =>
    rw [hpc] at hw ht
    cases hw
    exact popIf_lin ht fun hold => h.shared.contents_nil (by rw [hold]; rfl)
  | popGetShared cond x =>
    rw [hpc] at hw ht
    simp only at hw
    split at hw
    · cases hw
      exact Lin.goto ht
    · cases hw
      exact Lin.goto ht
  | popDeleted cond x =>
    rw [hpc] at hw
    cases hw
    exact popDeleted_lin h hl hpc
  | popDelete cond x =>
    rw [hpc] at hw
    cases hw
    exact popDelete_lin h hl hpc
  | peekLoad =>
    rw [hpc] at hw ht
    cases hw
    exact peek_lin ht fun hold => h.shared.contents_nil (by rw [hold]; rfl)
  | peekDeleted x =>
    rw [hpc] at hw ht hok
    simp only at hw
    split at hw
    · cases hw
      exact Lin.goto ht
    · rename_i hlive
      cases hw
      -- The entry at oldest is live, so it is the first one at this moment.
      refine Lin.finish (ht.read fun q hq => hq.peek ?_)
      exact h.shared.head_of_old hok.2 (Bool.not_eq_true _ ▸ hlive)
  | isEmpty =>
    rw [hpc] at ht
    exact absurd (ht.plain t .isEmpty (.inl (Function.update_self t _ _))) id
  | drop call =>
    rw [hpc] at hw ht hok
    obtain ⟨b, hcall⟩ := hok
    have hclean := nextPtr_cleans hcall fun x hx => h.held t x (by rw [hpc]; simp [Pc.holds, hx])
    have ht' : Lin { w with heap := (call.step w.heap).1 } (here w t .idle) :=
      ht.clean h.shared hclean
    simp only at hw
    split at hw
    · cases hw
      exact Lin.goto ht'
    · cases hw
      exact Lin.goto ht'

/-- An operation of a run of `push`, `pop_if` and `peek`. -/
def PlainAction (_ : World T n) (a : Action T n) : Prop :=
  ∀ t op, a = .thread t (.invoke op) → Plain op

/-- Every action keeps the history linearizable. -/
theorem lin_step (h : Inv w tgt) (hl : Lin w fun u => status (w.pc u)) {a : Action T n}
    (ha : PlainAction w a) (hw : w.step a = some w') : Lin w' fun u => status (w'.pc u) := by
  unfold World.step at hw
  split at hw
  · rename_i t op
    split at hw
    · rename_i hpc
      cases hw
      have ht := hl.take t
      rw [hpc] at ht
      refine Lin.goto ⟨?_, ?_⟩
      -- An invocation puts its event behind the trace; no other thread has moved.
      · obtain ⟨L, q, htrace, hL, hq⟩ := ht.trace
        have hidle : here w t (status .idle) t = .idle := Function.update_self t _ _
        have hmove := Trace.snoc _ htrace (.invoke t op hidle)
        refine ⟨L ++ [.invoke t op], q, ?_, ?_, hq.pushed, hq.queue, hq.value⟩
        · unfold here at hmove ⊢
          rw [Function.update_idem] at hmove
          cases op <;> exact hmove
        · rw [List.filter_append, hL]
          rfl
      · intro u op' hu
        by_cases hut : u = t
        · rw [hut] at hu
          unfold here at hu
          rw [Function.update_self] at hu
          have hop : op' = op := by
            cases op <;> rcases hu with hu | ⟨res, hu⟩ <;> cases hu <;> rfl
          rw [hop]
          exact ha t op rfl
        · unfold here at hu
          -- The call that is invoked is plain, as the run has it.
          rw [Function.update_of_ne hut] at hu
          exact hl.plain u op' hu
    · cases hw
  · exact proceed_lin h hl hw
  · rename_i t x
    split at hw
    · rename_i hpc hrel hy
      cases hw
      have ht := hl.take t
      rw [hpc] at ht
      exact Lin.goto ht
    · cases hw
  · rename_i x
    split at hw
    · cases hw
      exact hl.silent rfl fun q hq => ⟨hq.pushed, hq.queue, hq.value⟩
    · cases hw

end step

/-- The answers that say that the queue is empty. -/
def SaysEmpty : Op T → Res → Prop
  | .popIf _, .popped none | .peek, .peeked none => True
  | _, _ => False

/-- The history of every run of `push`, `pop_if` and `peek` is a run of the sequential queue
when effects are added. Its pushes are in the order in which the entries were attached, its
pops return the entries in this order, each one once, and the others are in the queue. A call
that returns `None` has found the queue empty at some moment. `P` can describe the run
further. -/
theorem queue_linearizable {P : World T n → Action T n → Prop}
    (hP : ∀ x a, P x a → PlainAction x a) {w : World T n} (h : Run World.step P World.init w) :
    (∃ L c, Trace Fifo.Step (.start ⟨[], []⟩) L c ∧ L.filter Event.visible = w.history ∧
      c.state.pushed = w.attached ∧ c.state.queue.map Prod.fst = w.contents ∧
      Fifo.popped L ++ w.contents = w.attached ∧ w.attached.Nodup) ∧
    ∀ t w' op res, P w (.thread t .proceed) → w.step (.thread t .proceed) = some w' →
      w'.history = w.history ++ [.result t op res] → SaysEmpty op res →
      During P w t fun u => u.contents = [] := by
  constructor
  -- Both invariants hold along the run, the one of the list first since the other needs it.
  · have hboth : (∃ tgt, Inv w tgt) ∧ Lin w fun u => status (w.pc u) := by
      refine h.invariant (fun w => (∃ tgt, Inv w tgt) ∧ Lin w fun u => status (w.pc u)) ?_ ?_
      · refine ⟨⟨some, inv_init⟩, ⟨[], ⟨[], []⟩, .nil, rfl, rfl, rfl, ?_⟩, ?_⟩
        · intro e x he
          cases he
        · intro t op ht
          rcases ht with ht | ⟨res, ht⟩ <;> cases ht
      · intro x a x' hx ha hs
        obtain ⟨⟨tgt, hinv⟩, hlin⟩ := hx
        exact ⟨inv_step hinv hs, lin_step hinv hlin (hP x a ha) hs⟩
    obtain ⟨⟨tgt, hinv⟩, hlin⟩ := hboth
    obtain ⟨L, q, htrace, hL, hq⟩ := hlin.trace
    refine ⟨L, _, htrace, hL, hq.pushed, hq.queue, ?_, hinv.shared.nodup⟩
    rw [← hq.queue, ← hq.pushed]
    exact Fifo.popped_append htrace
  · intro t w' op res hp hs hres hempty
    -- The answers that say empty are read off a moment within the call.
    have hjust := justified_of_run h hp hs hres
    unfold SaysEmpty at hempty
    split at hempty
    · exact hjust
    · exact hjust
    · cases hempty

/-- The thread is about to see in `pop` that the queue is empty. -/
def popsNothing (w : World Nat 2) (t : Fin 2) : Bool :=
  match w.pc t, w.oldest with
  | .popLoad _, none => true
  | _, _ => false

/-- Two threads attach their first entries to an empty queue at the same time, and both
entries are popped. The next pop returns `None`. -/
theorem queue_linearizable_race : ∃ (w w' : World Nat 2) (op : Op Nat),
    w.step (.thread 0 .proceed) = some w' ∧
    w'.history = w.history ++ [.result 0 op (.popped none)] ∧ w.attached = [0, 1] ∧
    Linearizable Fifo.Step ⟨[], []⟩ w.history ∧
    During PlainAction w 0 fun u => u.contents = [] := by
  have h : (exec World.step (fun _ _ => true) World.init
      ([invoke 0 (.push 5), invoke 1 (.push 7)] ++ proceeds 0 2 ++ proceeds 1 2 ++ proceeds 0 3 ++
        proceeds 1 5 ++ [invoke 0 .pop] ++ proceeds 0 10 ++ [invoke 0 .pop] ++ proceeds 0 9 ++
        [invoke 0 .pop])).any (fun w : World Nat 2 => w.attached == [0, 1] &&
      popsNothing w 0) = true := by
    decide +kernel
  obtain ⟨w, hr, hw⟩ := Run.of_forall (P := PlainAction) h fun a ha x t op hop => by
    subst hop
    simp only [List.mem_append, List.mem_cons, List.not_mem_nil, or_false, invoke, proceeds,
      List.mem_replicate, Action.thread.injEq, Act.invoke.injEq, reduceCtorEq, and_false] at ha
    rcases ha with (((⟨-, rfl⟩ | ⟨-, rfl⟩) | ⟨-, rfl⟩) | ⟨-, rfl⟩) | ⟨-, rfl⟩
    · exact fun _ => rfl
    · exact fun _ => rfl
    · exact trivial
    · exact trivial
    · exact trivial
  rw [Bool.and_eq_true, beq_iff_eq] at hw
  obtain ⟨hatt, hw⟩ := hw
  unfold popsNothing at hw
  split at hw
  · rename_i cond hpc hold
    have hstep : w.step (.thread 0 .proceed) = some (w.finish 0 (.popIf cond) (.popped none)) := by
      simp [World.step, World.proceed, hpc, hold, World.popIf]
    obtain ⟨⟨L, c, htrace, hL, -⟩, hempty⟩ := queue_linearizable (fun _ _ hx => hx) hr
    have hplain : PlainAction w (.thread 0 .proceed) := fun t op hc => by cases hc
    have hnone := hempty 0 _ (.popIf cond) (.popped none) hplain hstep rfl trivial
    exact ⟨w, _, .popIf cond, hstep, rfl, hatt, ⟨L, c, htrace, hL⟩, hnone⟩
  · cases hw

end Sdd.Proofs.Queue
