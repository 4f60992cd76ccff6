import Sdd.Proofs.Stack.Invariant
import Sdd.Proofs.Stack.Lifo

/-!
# `Sdd.Proofs.Stack.Linear`: runs of a stack as runs of a sequential stack

`Lin m hist st sn` says that the history `hist` becomes a run of the sequential stack when
effects are added, that this run ends with the entries that `m` has, and that it leaves each
thread `t` in the status `st t`. `sn t` is the entry that the thread has found in `newest` in
the current turn of its loop: since the pushes of the entries that are above it now, the
thread has had no event.

A push takes effect when its entry is attached, and a pop when the entry is deleted, in the
past if the entry is buried. The other operations take effect in the same way, when they see
that an entry is not deleted or that the stack is empty.

The condition of a push has been evaluated when the entry is attached. `agrees m call` says
that it holds of the newest undeleted entry then, and that the condition of an entry still
holds when the entry below it is deleted. `call_comes` follows the functions of the model.
-/

set_option autoImplicit false

namespace Sdd.Proofs.Stack

open Sdd.Lib Sdd.Lib.Linearize Sdd.Stack

variable {T : Type} {n : Nat}

/-- The instance of the newest undeleted entry. -/
def top (m : Mem T) : Option T := m.contents.head?.bind m.heap.value

/-- The entries directly above and below `x`. -/
def around (x : Addr) : List Addr → Option (Addr × Option Addr)
  | z :: y :: l => if y = x then some (z, l.head?) else around x (y :: l)
  | _ => none

/-- The next access of the call agrees with the conditions of the pushes. -/
def agrees (m : Mem T) : Call T → Bool
  | .attach p _ newest => m.newest != newest || p.cond (top m)
  | .popDelete _ x => m.heap.isDeleted x ||
      (around x m.contents).all fun (z, below) => m.cond z (below.bind m.heap.value)
  | _ => true

/-- The status of a thread that cleans up. -/
def cleanStatus : Clean T → Status (Op T) Res
  | .popped cond e => .decided (.popIf cond) (.popped (some e))
  | k => .pending k.op

/-- The status of a thread in a call. -/
def callStatus : Call T → Status (Op T) Res
  | .loadNewest k | .cleanDeleted k _ | .cleanNext k _ _ | .cleanExchange k _ _ => cleanStatus k
  | call => .pending call.op

/-- The status of a thread. -/
def status : Pc T → Status (Op T) Res
  | .call call => callStatus call
  | .idle | .drop _ => .idle

/-- The entry that a call has found in `newest`. -/
def callSeen : Call T → Option Addr
  | .cleanDeleted _ x | .popGetShared _ x | .popDeleted _ x | .popDelete _ x => some x
  | _ => none

/-- The entry that a thread has found in `newest`. -/
def seen : Pc T → Option Addr
  | .call call => callSeen call
  | .idle | .drop _ => none

/-- The sequential stack has the entries of the stack. -/
structure Same (m : Mem T) (q : Lifo T) : Prop where
  pushed : q.pushed = m.attached
  stack : q.stack.map Prod.fst = m.contents
  value : ∀ e x, (e, x) ∈ q.stack → m.heap.value e = some x

/-- The run `L` of the sequential stack explains the history. -/
structure Explains (m : Mem T) (hist : List (Event (Fin n) (Op T) Res))
    (st : Fin n → Status (Op T) Res) (sn : Fin n → Option Addr)
    (L : List (Event (Fin n) (Op T) Res)) (q : Lifo T) : Prop where
  trace : Trace Lifo.Step (.start ⟨[], []⟩) L ⟨st, q⟩
  history : L.filter Event.visible = hist
  same : Same m q
  cond : ∀ u val cond z, .effect u (.pushIf val cond) (.pushed z) ∈ L → m.cond z = cond
  seen : ∀ t x z, sn t = some x → [z, x].Sublist m.contents →
    ∀ e ∈ Lifo.since z L, e.thread ≠ t

/-- The history is linearizable. -/
def Lin (m : Mem T) (hist : List (Event (Fin n) (Op T) Res)) (st : Fin n → Status (Op T) Res)
    (sn : Fin n → Option Addr) : Prop :=
  ∃ L q, Explains m hist st sn L q

section lin

variable {m m' : Mem T} {hist : List (Event (Fin n) (Op T) Res)}
  {st : Fin n → Status (Op T) Res} {sn sn' : Fin n → Option Addr} {t : Fin n} {op : Op T}
  {res : Res} {x : Addr} {o : Option Addr} {q : Lifo T} {tgt : Addr → Option Addr}

/-- The entries after the clean-up of a link. -/
theorem contents_clean {v : View} {h' : Heap T} (hc : Cleans v m.heap h') :
    Mem.contents { m with heap := h' } = m.contents := by
  show m.attached.filter (fun x => !h'.isDeleted x) = _
  rw [hc.isDeleted_eq]
  rfl

/-- A write that leaves the entries and their instances. -/
theorem Lin.silent (h : Lin m hist st sn) (hatt : m'.attached = m.attached)
    (hcont : m'.contents = m.contents) (hcond : m'.cond = m.cond)
    (hval : ∀ x ∈ m.contents, m'.heap.value x = m.heap.value x) : Lin m' hist st sn := by
  obtain ⟨L, q, he⟩ := h
  refine ⟨L, q, he.trace, he.history, ⟨?_, ?_, ?_⟩, ?_, ?_⟩
  · rw [hatt]
    exact he.same.pushed
  · rw [hcont]
    exact he.same.stack
  · intro e x hmem
    rw [hval e (he.same.stack ▸ List.mem_map_of_mem hmem)]
    exact he.same.value e x hmem
  · rw [hcond]
    exact he.cond
  · rw [hcont]
    exact he.seen

/-- A thread forgets what it has seen, or what it sees now is the first entry or none. -/
theorem Lin.look (h : Lin m hist st sn) (hnodup : m.contents.Nodup)
    (hsn : ∀ u x, sn' u = some x → sn u = some x ∨ m.contents.head? = some x ∨ x ∉ m.contents) :
    Lin m hist st sn' := by
  obtain ⟨L, q, he⟩ := h
  refine ⟨L, q, he.trace, he.history, he.same, he.cond, ?_⟩
  intro u x z hu hsub
  rcases hsn u x hu with hold | hhead | hnot
  · exact he.seen u x z hold hsub
  · -- Nothing is above the first entry.
    exfalso
    cases hcont : m.contents with
    | nil =>
      rw [hcont] at hhead
      cases hhead
    | cons y l =>
      rw [hcont] at hhead hnodup hsub
      have hyx : y = x := Option.some.inj hhead
      subst hyx
      obtain ⟨hy, -⟩ := List.nodup_cons.mp hnodup
      have hmem : y ∈ l := by
        rcases List.sublist_cons_iff.mp hsub with hsub | ⟨l', hl', hsub⟩
        · exact hsub.mem (by simp)
        · have hl : l' = [y] := (List.cons.inj hl').2.symm
          rw [hl] at hsub
          exact hsub.mem List.mem_cons_self
      exact hy hmem
  · exact absurd (hsub.mem (by simp)) hnot

/-- The operation of a thread takes effect when the entry `x` that it has found was the first
one. In the sequential stack, `below` takes the place of what is from `x` on. -/
theorem Explains.takes {L : List (Event (Fin n) (Op T) Res)} {y : T}
    {above r : List (Addr × T)} (below : List (Addr × T)) (h : Explains m hist st sn L q)
    (hsn : sn t = some x)
    (ht : st t = .pending op) (hstack : q.stack = above ++ (x, y) :: r)
    (hres : ∀ e, res ≠ .pushed e) (hstep : ∀ p, Lifo.Step ⟨p, (x, y) :: r⟩ op res ⟨p, below⟩)
    (hmet : ∀ z, (above.getLast?).map Prod.fst = some z → m.cond z (some y) = true →
      m.cond z (below.head?.map Prod.snd) = true)
    (hsame : Same m' ⟨q.pushed, above ++ below⟩) (hcond : m'.cond = m.cond)
    (hsub : m'.contents.Sublist m.contents) :
    Lin m' hist (Function.update st t (.decided op res)) (Function.update sn t none) := by
  -- The entry `x` is in the middle of the stack: `above` was pushed after the thread has seen `x`.
  have hcontents : m.contents = above.map Prod.fst ++ x :: r.map Prod.fst := by
    rw [← h.same.stack, hstack, List.map_append, List.map_cons]
  have hafter : ∀ z v, (z, v) ∈ above → ∀ e ∈ Lifo.since z L, e.thread ≠ t := by
    intro z v hz
    refine h.seen t x z hsn ?_
    rw [hcontents]
    have hmem : z ∈ above.map Prod.fst := List.mem_map.mpr ⟨(z, v), hz, rfl⟩
    exact (List.singleton_sublist.mpr hmem).append
      (List.singleton_sublist.mpr List.mem_cons_self)
  -- The effect is inserted into the trace before the pushes of `above`, where `x` was on top.
  obtain ⟨L₁, L₂, hL, htrace⟩ := Lifo.takes below h.trace hstack ht hafter hstep
    fun z v u val cond hz hmem hy => by
      rw [← h.cond u val cond z hmem] at hy ⊢
      exact hmet z (by rw [hz]; rfl) hy
  refine ⟨_, _, htrace, ?_, hsame, ?_, ?_⟩
  · rw [visible_insert, ← hL, h.history]
  -- The conditions that were met by the pushes are the ones of the entries that are there.
  · intro u val cond z hmem
    rw [hcond]
    rcases List.mem_append.mp hmem with hmem | hmem
    · exact h.cond u val cond z (hL ▸ List.mem_append_left _ hmem)
    · rcases List.mem_cons.mp hmem with heq | hmem
      · cases heq
        exact absurd rfl (hres z)
      · exact h.cond u val cond z (hL ▸ List.mem_append_right _ hmem)
  -- No other thread has seen anything that the inserted effect could contradict.
  · intro u y' z hu hz e he
    have hut : u ≠ t := by
      rintro rfl
      rw [Function.update_self] at hu
      cases hu
    rw [Function.update_of_ne hut] at hu
    have hnot : Lifo.pushes z (.effect t op res) = false := by
      cases res with
      | pushed e' => exact absurd rfl (hres e')
      | _ => rfl
    rcases Lifo.mem_since_insert hnot he with he | rfl
    · rw [← hL] at he
      exact h.seen u y' z hu (hz.trans hsub) e he
    · exact hut.symm

/-- An entry of the sequential stack. -/
theorem Same.split (hq : Same m q) (hx : x ∈ m.contents) :
    ∃ above y r, q.stack = above ++ (x, y) :: r ∧ m.heap.value x = some y := by
  rw [← hq.stack] at hx
  obtain ⟨⟨x', y⟩, hmem, hx'⟩ := List.mem_map.mp hx
  have hxx : x' = x := hx'
  subst hxx
  obtain ⟨above, r, hsplit⟩ := List.append_of_mem hmem
  exact ⟨above, y, r, hsplit, hq.value x' y hmem⟩

/-- The operation of a thread reads the entry that it has found, which is not deleted, or
sees that the stack is empty. -/
theorem Lin.answer (h : Lin m hist st sn) (hsn : sn t = o) (ht : st t = .pending op)
    (ho : ∀ x, o = some x → x ∈ m.contents) (hnil : o = none → m.contents = [])
    (hres : ∀ e, res ≠ .pushed e)
    (hstep : ∀ q : Lifo T, q.stack.head?.map Prod.fst = o →
      q.stack.head?.map Prod.snd = o.bind m.heap.value → Lifo.Step q op res q) :
    Lin m hist (Function.update st t (.decided op res)) (Function.update sn t none) := by
  obtain ⟨L, q, he⟩ := h
  -- Either the thread has seen an entry, which was on top at some moment, or the stack is empty
  -- now.
  cases o with
  | some x =>
    obtain ⟨above, y, r, hstack, hy⟩ := he.same.split (ho x rfl)
    refine he.takes ((x, y) :: r) hsn ht hstack hres (fun p => ?_) (fun z _ hmet => hmet) ?_ rfl
      (.refl _)
    · refine hstep _ rfl ?_
      rw [Option.bind_some, hy]
      rfl
    · rw [← hstack]
      exact he.same
  | none =>
    have hstack : q.stack = [] := by
      rw [← List.map_eq_nil_iff, he.same.stack]
      exact hnil rfl
    -- An empty stack is seen now: the effect comes last.
    refine ⟨L ++ [.effect t op res], q, .snoc _ he.trace (.effect t op res q ht ?_), ?_, he.same,
      ?_, ?_⟩
    · exact hstep q (by rw [hstack]; rfl) (by rw [hstack]; rfl)
    · rw [visible_insert, List.append_nil]
      exact he.history
    · intro u val cond z hmem
      rcases List.mem_append.mp hmem with hmem | hmem
      · exact he.cond u val cond z hmem
      · cases List.mem_singleton.mp hmem
        exact absurd rfl (hres z)
    · intro u x z _ hsub
      rw [hnil rfl] at hsub
      exact absurd (hsub.mem List.mem_cons_self) (by simp)

/-- The neighbours of an entry in a list. -/
theorem around_append {a r : List Addr} {z : Addr} (hx : x ∉ a) (hzx : z ≠ x) :
    around x (a ++ z :: x :: r) = some (z, r.head?) := by
  induction a with
  | nil =>
    show (if x = x then some (z, r.head?) else _) = _
    rw [if_pos rfl]
  | cons y a ih =>
    have hxa : x ∉ a := fun hc => hx (List.mem_cons_of_mem y hc)
    rw [← ih hxa]
    cases a with
    | nil =>
      show (if z = x then _ else _) = _
      rw [if_neg hzx]
      rfl
    | cons y' a =>
      have hne : y' ≠ x := fun hc => hxa (hc ▸ List.mem_cons_self)
      show (if y' = x then _ else _) = _
      rw [if_neg hne]
      rfl

/-- The entry leaves the contents. -/
theorem contents_kill (hs : One m tgt) (hx : x ∈ m.attached) (hlive : m.heap.isDeleted x = false) :
    Mem.contents { m with heap := (m.heap.deleteSelf x).1 } = m.contents.erase x := by
  have hentries := entries_kill hs hx hlive ()
  have heq : ∀ h : Heap T, entries h m.attached (fun _ => ()) () =
      m.attached.filter fun x => !h.isDeleted x := by
    intro h
    unfold entries
    simp
  rw [heq, heq] at hentries
  exact hentries

theorem One.nodup_contents (hs : One m tgt) : m.contents.Nodup :=
  hs.nodup.filter _

/-- A pop takes effect when the entry is deleted. -/
theorem Lin.pop (h : Lin m hist st sn) (hs : One m tgt) (hx : x ∈ m.attached)
    (hlive : m.heap.isDeleted x = false) {cond : T → Bool} (hsn : sn t = some x)
    (ht : st t = .pending (.popIf cond)) (hvalue : (m.heap.value x).any cond = true)
    (hagrees : agrees m (.popDelete cond x) = true) :
    Lin { m with heap := (m.heap.deleteSelf x).1 } hist
      (Function.update st t (.decided (.popIf cond) (.popped (some x))))
      (Function.update sn t none) := by
  obtain ⟨L, q, he⟩ := h
  obtain ⟨above, y, r, hstack, hy⟩ := he.same.split (mem_contents.mpr ⟨hx, hlive⟩)
  have hcontents : m.contents = above.map Prod.fst ++ x :: r.map Prod.fst := by
    rw [← he.same.stack, hstack, List.map_append, List.map_cons]
  have hnodup := hs.nodup_contents
  rw [hcontents] at hnodup
  have hnot : x ∉ above.map Prod.fst := by
    intro hc
    exact (List.nodup_append.mp hnodup).2.2 x hc x List.mem_cons_self rfl
  have hkill := contents_kill hs hx hlive
  have hval : (m.heap.deleteSelf x).1.value = m.heap.value := by
    rw [deleteSelf_eq hlive]
    rfl
  refine he.takes r hsn ht hstack (fun e => nofun) (fun p => ?_) ?_ ?_ rfl ?_
  · rw [hy] at hvalue
    exact .pop cond x y r rfl hvalue
  · intro z hz _
    -- `z` is the entry directly above `x`.
    rcases List.eq_nil_or_concat above with rfl | ⟨a, ⟨z', v⟩, rfl⟩
    · cases hz
    · rw [List.concat_eq_append] at hz hnot hcontents
      have hzz : z' = z := by simpa using hz
      subst hzz
      rw [List.map_append, List.map_cons, List.map_nil] at hnot hcontents
      have hxa : x ∉ a.map Prod.fst := fun hc => hnot (List.mem_append_left _ hc)
      have hzx : z' ≠ x := fun hc => hnot (hc ▸ List.mem_append_right _ List.mem_cons_self)
      have haround : around x m.contents = some (z', (r.map Prod.fst).head?) := by
        rw [hcontents, List.append_assoc]
        exact around_append hxa hzx
      have hmet : m.cond z' ((r.map Prod.fst).head?.bind m.heap.value) = true := by
        simp only [agrees] at hagrees
        rw [hlive, haround, Bool.false_or] at hagrees
        exact hagrees
      have hbelow : ((r.map Prod.fst).head?).bind m.heap.value = r.head?.map Prod.snd := by
        cases r with
        | nil => rfl
        | cons b r =>
          refine he.same.value b.1 b.2 ?_
          rw [hstack]
          exact List.mem_append_right _ (List.mem_cons_of_mem _ List.mem_cons_self)
      rw [hbelow] at hmet
      exact hmet
  · refine ⟨he.same.pushed, ?_, ?_⟩
    · rw [hkill, hcontents, List.erase_append_right _ hnot, List.erase_cons_head,
        List.map_append]
    · intro e v hmem
      show (m.heap.deleteSelf x).1.value e = some v
      rw [hval]
      refine he.same.value e v ?_
      rw [hstack]
      rcases List.mem_append.mp hmem with hmem | hmem
      · exact List.mem_append_left _ hmem
      · exact List.mem_append_right _ (List.mem_cons_of_mem _ hmem)
  · rw [hkill]
    exact List.erase_sublist

/-- A push takes effect when the entry is attached. -/
theorem Lin.push (h : Lin m hist st sn) (hs : One m tgt) {p : Push T} {e : Addr}
    (he : e ∉ m.attached) (hval : m.heap.value e = some p.val)
    (ht : st t = .pending (.pushIf p.val p.cond)) (hcond : p.cond (top m) = true) :
    Lin { m with
        newest := some e
        attached := e :: m.attached
        cond := Function.update m.cond e p.cond } hist
      (Function.update st t (.decided (.pushIf p.val p.cond) (.pushed e)))
      (Function.update sn t none) := by
  obtain ⟨L, q, hex⟩ := h
  -- The new entry was never pushed, and becomes the top of both stacks.
  have hnot : e ∉ q.pushed := by
    rw [hex.same.pushed]
    exact he
  have hlive := hs.unattached e he
  have hcontents : Mem.contents { m with
      newest := some e
      attached := e :: m.attached
      cond := Function.update m.cond e p.cond } = e :: m.contents := by
    show (e :: m.attached).filter (fun x => !m.heap.isDeleted x) = _
    rw [List.filter_cons_of_pos (by rw [hlive]; rfl)]
    rfl
  have htop : q.stack.head?.map Prod.snd = top m := by
    unfold top
    rw [← hex.same.stack]
    cases hstack : q.stack with
    | nil => rfl
    | cons b r =>
      refine (hex.same.value b.1 b.2 ?_).symm
      rw [hstack]
      exact List.mem_cons_self
  -- The push takes effect now, as the last event of the trace.
  refine ⟨L ++ [.effect t (.pushIf p.val p.cond) (.pushed e)],
    ⟨e :: q.pushed, (e, p.val) :: q.stack⟩, ?_, ?_, ⟨?_, ?_, ?_⟩, ?_, ?_⟩
  · refine .snoc _ hex.trace (.effect t _ _ _ ht (.push p.val p.cond e hnot ?_))
    rw [← htop] at hcond
    exact hcond
  · rw [visible_insert, List.append_nil]
    exact hex.history
  · exact congrArg (e :: ·) hex.same.pushed
  · rw [hcontents, List.map_cons, hex.same.stack]
  · intro x v hmem
    rcases List.mem_cons.mp hmem with heq | hmem
    · cases heq
      exact hval
    · exact hex.same.value x v hmem
  · intro u val cond z hmem
    show Function.update m.cond e p.cond z = cond
    rcases List.mem_append.mp hmem with hmem | hmem
    · have hze : z ≠ e := by
        intro hc
        rw [hc] at hmem
        exact hnot (Lifo.pushed_of_pushes hex.trace hmem (Lifo.pushes_self u _))
      rw [Function.update_of_ne hze]
      exact hex.cond u val cond z hmem
    · cases List.mem_singleton.mp hmem
      exact Function.update_self _ _ _
  · intro u x z hu hsub f hf
    have hut : u ≠ t := by
      rintro rfl
      rw [Function.update_self] at hu
      cases hu
    rw [Function.update_of_ne hut] at hu
    rw [hcontents] at hsub
    rcases Lifo.mem_since_snoc hf with hf | rfl
    · rcases List.sublist_cons_iff.mp hsub with hsub | ⟨l, hl, -⟩
      · exact hex.seen u x z hu hsub f hf
      · -- The new entry was not pushed before.
        have hze : z = e := (List.cons.inj hl).1
        rw [hze, Lifo.since_eq_nil hex.trace hnot] at hf
        cases hf
    · exact hut.symm

/-- An operation begins, or returns. -/
theorem Lin.event (h : Lin m hist st sn) {f : Event (Fin n) (Op T) Res}
    {s : Status (Op T) Res} (hf : f.thread = t) (hvis : f.visible = true)
    (hmove : ∀ q : Lifo T, Lib.Linearize.Move Lifo.Step ⟨st, q⟩ f ⟨Function.update st t s, q⟩) :
    Lin m (hist ++ [f]) (Function.update st t s) (Function.update sn t none) := by
  obtain ⟨L, q, he⟩ := h
  refine ⟨L ++ [f], q, .snoc _ he.trace (hmove q), ?_, he.same, ?_, ?_⟩
  · rw [List.filter_append, he.history]
    simp [hvis]
  · intro u val cond z hmem
    rcases List.mem_append.mp hmem with hmem | hmem
    · exact he.cond u val cond z hmem
    · rw [← List.mem_singleton.mp hmem] at hvis
      cases hvis
  · intro u x z hu hsub e hmem
    have hut : u ≠ t := by
      rintro rfl
      rw [Function.update_self] at hu
      cases hu
    rw [Function.update_of_ne hut] at hu
    rcases Lifo.mem_since_snoc hmem with hmem | rfl
    · exact he.seen u x z hu hsub e hmem
    · rw [hf]
      exact hut.symm

end lin

/-- The history of `w` is linearizable, with the words `m` and with the thread `t` in the
status `s`, where it has found `o` in `newest`. -/
def At (w : World T n) (t : Fin n) (m : Mem T) (s : Status (Op T) Res) (o : Option Addr) : Prop :=
  Lin m w.history (Function.update (fun u => status (w.pc u)) t s)
    (Function.update (fun u => seen (w.pc u)) t o)

/-- The same after an access of the call of `op` that the thread is in. -/
def Comes (w : World T n) (t : Fin n) (op : Op T) : Mem T × Outcome (Call T) Res → Prop
  | (m, .running call) => At w t m (callStatus call) (callSeen call)
  | (m, .done res) => At w t m (.decided op res) none

section walk

variable {w : World T n} {m m' : Mem T} {t : Fin n} {s : Status (Op T) Res} {o o' : Option Addr}
  {op : Op T} {res : Res} {x : Addr} {p : Push T} {k : Clean T} {tgt : Addr → Option Addr}

theorem At.silent (h : At w t m s o) (hatt : m'.attached = m.attached)
    (hcont : m'.contents = m.contents) (hcond : m'.cond = m.cond)
    (hval : ∀ x ∈ m.contents, m'.heap.value x = m.heap.value x) : At w t m' s o :=
  Lin.silent h hatt hcont hcond hval

/-- The thread finds an entry in `newest`, or keeps the one it has, or forgets it. -/
theorem At.look (h : At w t m s o) (hs : One m tgt)
    (ho : ∀ x, o' = some x → o = some x ∨ m.contents.head? = some x ∨ x ∉ m.contents) :
    At w t m s o' := by
  refine Lin.look h hs.nodup_contents fun u x hu => ?_
  by_cases hut : u = t
  · rw [hut, Function.update_self] at hu ⊢
    exact ho x hu
  · rw [Function.update_of_ne hut] at hu ⊢
    exact .inl hu

theorem At.forget (h : At w t m s o) (hs : One m tgt) : At w t m s none :=
  h.look hs fun _ hx => by cases hx

/-- The operation reads what it has found, and takes effect. -/
theorem At.answer (h : At w t m (.pending op) o) (ho : ∀ x, o = some x → x ∈ m.contents)
    (hnil : o = none → m.contents = []) (hres : ∀ e, res ≠ .pushed e)
    (hstep : ∀ q : Lifo T, q.stack.head?.map Prod.fst = o →
      q.stack.head?.map Prod.snd = o.bind m.heap.value → Lifo.Step q op res q) :
    At w t m (.decided op res) none := by
  have hdone := Lin.answer (t := t) h (Function.update_self _ _ _) (Function.update_self _ _ _) ho
    hnil hres hstep
  rw [Function.update_idem, Function.update_idem] at hdone
  exact hdone

/-- The condition of `push_if` is evaluated. -/
theorem evaluate_comes (h : At w t m (.pending (.pushIf p.val p.cond)) o) (hs : One m tgt)
    (ho : ∀ x, o = some x → x ∈ m.contents) (hnil : o = none → m.contents = []) :
    Comes w t (.pushIf p.val p.cond) (m.evaluate p o) := by
  unfold Mem.evaluate
  by_cases hcond : p.cond (o.bind m.heap.value) = true
  · rw [if_pos hcond]
    split
    · exact h.forget hs
    · refine (h.forget hs).silent rfl rfl rfl fun x hx => ?_
      have hlt := hs.heap.bound x (mem_contents.mp hx).1
      exact Function.update_of_ne (Nat.ne_of_lt hlt) _ _
  · rw [if_neg hcond]
    refine h.answer ho hnil (fun e => nofun) fun q _ hq => .reject p.val p.cond ?_
    rw [hq]
    exact Bool.not_eq_true _ ▸ hcond

/-- `cleanup_newest` returns. -/
theorem cleaned_comes (h : At w t m (cleanStatus k) o) (hs : One m tgt)
    (ho : ∀ x, o = some x → x ∈ m.contents) (hnil : o = none → m.contents = []) :
    Comes w t k.op (m.cleaned k o) := by
  unfold Mem.cleaned
  cases k with
  | push p => exact evaluate_comes h hs ho hnil
  | popIf cond =>
    cases o with
    | none =>
      refine At.answer h ho hnil (fun e => nofun) fun q hq _ => .empty cond ?_
      simpa using hq
    | some x => exact h
  | popped cond e => exact h.forget hs
  | peek =>
    refine At.answer h ho hnil (fun e => nofun) fun q hq _ => ?_
    rw [← hq]
    exact .peek
  | isEmpty =>
    refine At.answer h ho hnil (fun e => nofun) fun q hq _ => ?_
    have hnone : o.isNone = q.stack.head?.isNone := by
      rw [← hq, Option.isNone_map]
    rw [hnone]
    exact .isEmpty

/-- The entry in `newest` is the first one, or it is deleted. -/
theorem One.newest_head (hs : One m tgt) (hx : m.newest = some x) :
    m.contents.head? = some x ∨ x ∉ m.contents := by
  by_cases hmem : x ∈ m.contents
  · refine .inl ?_
    rw [hs.head_eq, hx]
    exact hs.heap.skip.live x (mem_contents.mp hmem).2
  · exact .inr hmem

/-- One turn of the loop of `cleanup_newest`. -/
theorem cleanup_comes (h : At w t m (cleanStatus k) none) (hs : One m tgt) :
    Comes w t k.op (m.cleanup k m.newest) := by
  cases hnewest : m.newest with
  | none =>
    exact cleaned_comes h hs (fun x hx => by cases hx) fun _ => hs.contents_nil hnewest
  | some x =>
    refine At.look h hs fun y hy => .inr ?_
    exact Option.some.inj hy ▸ hs.newest_head hnewest

end walk

/-- The entry that `pop_if` deletes is wanted, unless it is deleted already. -/
def Wanted (m : Mem T) : Pc T → Prop
  | .call (.popDelete cond x) => m.heap.isDeleted x = true ∨ (m.heap.value x).any cond = true
  | _ => True

section step

variable {w : World T n} {t : Fin n} {tgt : Addr → Option Addr}

/-- One access of a call. -/
theorem call_comes (h : Inv w tgt) {call : Call T} (hpc : w.pc t = .call call)
    (hl : Lin w.mem w.history (fun u => status (w.pc u)) (fun u => seen (w.pc u)))
    (hwant : Wanted w.mem (w.pc t)) (hagrees : agrees w.mem call = true) :
    Comes w t call.op (w.mem.step call) := by
  have hok := h.ok t
  rw [hpc] at hok hwant
  have hheld : ∀ x, call.holds x = true → w.mem.heap.released x = false := fun x hx =>
    h.held t x (by rw [hpc]; exact hx)
  have hs := h.one
  have hat : At w t w.mem (callStatus call) (callSeen call) := by
    have hst : callStatus call = status (w.pc t) := by
      rw [hpc]
      rfl
    have hsn : callSeen call = seen (w.pc t) := by
      rw [hpc]
      rfl
    unfold At
    rw [hst, hsn, Function.update_eq_self, Function.update_eq_self]
    exact hl
  cases call with
  -- A walk to `newest` finds the top, if the entry that it finds there is not deleted.
  | loadNewest k => exact cleanup_comes hat hs
  | cleanDeleted k x =>
    simp only [Mem.step]
    -- A deleted entry is not the top: the thread goes on without having seen anything.
    by_cases hdead : w.mem.heap.isDeleted x = true
    · rw [if_pos hdead]
      exact hat.forget hs
    · rw [if_neg hdead]
      refine cleaned_comes hat hs (fun y hy => ?_) fun hc => by cases hc
      rw [← Option.some.inj hy]
      exact mem_contents.mpr ⟨hok.2, Bool.not_eq_true _ ▸ hdead⟩
  | cleanNext k x call =>
    -- The clean-up changes links only, so that the contents stay.
    obtain ⟨-, -, -, hcall⟩ := hok
    have hclean := nextShared_cleans hcall fun y hy => hheld y (by simp [Call.holds, hy])
    have hat' : At w t { w.mem with heap := (call.step w.mem.heap).1 } (cleanStatus k) none :=
      hat.silent rfl (contents_clean hclean) rfl fun y _ => congrFun hclean.fields.1 y
    show Comes w t k.op
      ({ w.mem with heap := (call.step w.mem.heap).1 }.cleanNext k x (call.step w.mem.heap).2)
    cases (call.step w.mem.heap).2 with
    | running call' => exact hat'
    | done next => exact hat'
  | cleanExchange k x next =>
    simp only [Mem.step]
    -- Whatever is in `newest` afterwards, the loop looks at it again.
    by_cases hnewest : w.mem.newest = some x
    · rw [if_pos hnewest]
      have hs' : One { w.mem with newest := next } tgt :=
        .of_update (Stacks.exchange hs rfl hok hheld hnewest)
      exact cleanup_comes (hat.silent rfl rfl rfl fun _ _ => rfl) hs'
    · rw [if_neg hnewest]
      exact cleanup_comes hat hs
  | swapLink p e newest =>
    obtain ⟨hp, hentry, -⟩ := hok
    have hlive := hs.unattached e (hp e hentry).2.1
    -- The entry of the push is not in the stack yet.
    refine At.silent hat rfl ?_ rfl fun _ _ => rfl
    unfold Mem.contents
    rw [isDeleted_private hlive]
  | attach p e newest =>
    obtain ⟨hp, hentry, -⟩ := hok
    obtain ⟨-, hnot, hval⟩ := hp e hentry
    simp only [Mem.step]
    -- The push takes effect if nobody has written `newest` in the meantime.
    by_cases heq : w.mem.newest = newest
    · rw [if_pos heq]
      have hcond : p.cond (top w.mem) = true := by
        simp only [agrees] at hagrees
        rw [heq, bne_self_eq_false, Bool.false_or] at hagrees
        exact hagrees
      have hpush := Lin.push hat hs hnot hval (Function.update_self _ _ _) hcond
      rw [Function.update_idem, Function.update_idem] at hpush
      exact hpush
    · rw [if_neg heq]
      exact cleanup_comes hat hs
  | popGetShared cond x =>
    simp only [Mem.step]
    split
    · exact hat
    · exact hat
  | popDeleted cond x =>
    -- A `pop_if` that refuses has its effect when it has seen the top.
    simp only [Mem.step]
    split
    · rename_i hc
      rw [Bool.and_eq_true, Bool.not_eq_true', Bool.not_eq_true'] at hc
      refine At.answer hat (fun y hy => ?_) (fun hnone => by cases hnone) (fun e => (by simp))
        fun q hq hv => ?_
      · rw [← Option.some.inj hy]
        exact mem_contents.mpr ⟨hok, hc.1⟩
      · cases hhead : q.stack.head? with
        | none =>
          rw [hhead] at hq
          cases hq
        | some b =>
          rw [hhead] at hq hv
          have hb : b.1 = x := Option.some.inj hq
          have hvalue : w.mem.heap.value x = some b.2 := hv.symm
          rw [hvalue] at hc
          refine .refuse cond x b.2 ?_ hc.2
          rw [hhead, ← hb]
    · exact hat
  | popDelete cond x =>
    have hatt : x ∈ w.mem.attached := hok
    simp only [Mem.step]
    -- The one who deletes the entry has popped it; the effect lies where the entry was on top.
    cases hlive : w.mem.heap.isDeleted x with
    | true =>
      rw [deleteSelf_dead hlive]
      exact hat
    | false =>
      have hvalue : (w.mem.heap.value x).any cond = true := by
        rcases hwant with hdead | hvalue
        · rw [hlive] at hdead
          cases hdead
        · exact hvalue
      -- The entry need not be on top any more: pushes that came later have moved above it.
      have hpop := Lin.pop hat hs hatt hlive (Function.update_self _ _ _)
        (Function.update_self _ _ _) hvalue hagrees
      rw [Function.update_idem, Function.update_idem] at hpop
      have hs' : One { w.mem with heap := (w.mem.heap.deleteSelf x).1 }
          (killed (next w.mem.heap) tgt x) := hs.kill hatt hlive
      have hgone : x ∉ Mem.contents { w.mem with heap := (w.mem.heap.deleteSelf x).1 } := by
        rw [contents_kill hs hatt hlive]
        exact hs.nodup_contents.not_mem_erase
      have hlook : At w t { w.mem with heap := (w.mem.heap.deleteSelf x).1 }
          (.decided (.popIf cond) (.popped (some x))) (some x) :=
        At.look hpop hs' fun y hy => .inr (.inr (Option.some.inj hy ▸ hgone))
      have hdel : w.mem.heap.deleteSelf x = ((w.mem.heap.deleteSelf x).1, true) := by
        rw [deleteSelf_eq hlive]
      rw [hdel]
      exact hlook

variable {w' : World T n}

/-- The history of `w` is linearizable. -/
def Linear (w : World T n) : Prop :=
  Lin w.mem w.history (fun u => status (w.pc u)) fun u => seen (w.pc u)

/-- A value for each thread, when one of them goes to another place. -/
theorem map_goto {B : Type} (f : Pc T → B) (pc : Pc T) :
    (fun u => f ((w.goto t pc).pc u)) = Function.update (fun u => f (w.pc u)) t (f pc) := by
  funext u
  show f (Function.update w.pc t pc u) = _
  by_cases hu : u = t
  · rw [hu, Function.update_self, Function.update_self]
  · rw [Function.update_of_ne hu, Function.update_of_ne hu]

/-- The thread goes to the place that an access leads to. -/
theorem Comes.called {op : Op T} {r : Mem T × Outcome (Call T) Res} (h : Comes w t op r) :
    Linear (w.called t op r) := by
  unfold Linear
  obtain ⟨m, out⟩ := r
  cases out with
  | running call =>
    show Lin m w.history (fun u => status ((w.goto t (.call call)).pc u))
      fun u => seen ((w.goto t (.call call)).pc u)
    rw [map_goto, map_goto]
    exact h
  | done res =>
    show Lin m (w.history ++ [.result t op res]) (fun u => status ((w.goto t .idle).pc u))
      fun u => seen ((w.goto t .idle).pc u)
    rw [map_goto, map_goto]
    have hdecided : Function.update (fun u => status (w.pc u)) t (.decided op res) t
        = .decided op res := Function.update_self t _ _
    have hmove : ∀ q : Lifo T, Lib.Linearize.Move Lifo.Step
        ⟨Function.update (fun u => status (w.pc u)) t (.decided op res), q⟩ (.result t op res)
        ⟨Function.update (Function.update (fun u => status (w.pc u)) t (.decided op res)) t .idle,
          q⟩ :=
      fun q => .result t op res hdecided
    have hevent := Lin.event (t := t) h rfl rfl hmove
    rw [Function.update_idem, Function.update_idem] at hevent
    exact hevent

/-- The action agrees with the conditions of the pushes. -/
def agreesAction (w : World T n) : Action T n → Bool
  | .thread t .proceed =>
    match w.pc t with
    | .call call => agrees w.mem call
    | .idle | .drop _ => true
  | _ => true

/-- A thread that is not in a call goes to another such place. -/
theorem Linear.goto (h : Linear w) {m : Mem T} {pc : Pc T} (hst : status pc = status (w.pc t))
    (hsn : seen pc = seen (w.pc t)) (hatt : m.attached = w.mem.attached)
    (hcont : m.contents = w.mem.contents) (hcond : m.cond = w.mem.cond)
    (hval : m.heap.value = w.mem.heap.value) :
    Linear (World.goto { w with mem := m } t pc) := by
  unfold Linear
  show Lin m w.history (fun u => status ((w.goto t pc).pc u)) fun u => seen ((w.goto t pc).pc u)
  rw [map_goto, map_goto, hst, hsn, Function.update_eq_self, Function.update_eq_self]
  exact Lin.silent h hatt hcont hcond fun y _ => congrFun hval y

/-- Every action that agrees with the conditions keeps the history linearizable. -/
theorem linear_step (h : Inv w tgt) (hl : Linear w) (hwant : ∀ t, Wanted w.mem (w.pc t))
    {a : Action T n} (ha : agreesAction w a = true) (hw : w.step a = some w') : Linear w' := by
  -- An invocation is an event of its own. A call takes effect in one of its accesses, and a
  -- destructor does nothing.
  cases stepped hw with
  | invoke t op hpc =>
    unfold Linear
    show Lin w.mem (w.history ++ [.invoke t op])
      (fun u => status ((w.goto t (.call (.start op))).pc u))
      fun u => seen ((w.goto t (.call (.start op))).pc u)
    rw [map_goto, map_goto]
    have hidle : status (w.pc t) = .idle := by
      rw [hpc]
      rfl
    have hmove : ∀ q : Lifo T, Lib.Linearize.Move Lifo.Step ⟨fun u => status (w.pc u), q⟩ (.invoke t op)
        ⟨Function.update (fun u => status (w.pc u)) t (.pending op), q⟩ :=
      fun q => .invoke t op hidle
    cases op with
    | _ => exact Lin.event hl rfl rfl hmove
  | call t call hpc =>
    have hagrees : agrees w.mem call = true := by
      simp only [agreesAction] at ha
      rw [hpc] at ha
      exact ha
    exact (call_comes h hpc hl (hwant t) hagrees).called
  | dropping t call call' hpc hout =>
    have hclean := h.drop_cleans hpc
    refine hl.goto ?_ ?_ rfl (contents_clean hclean) rfl hclean.fields.1
    · rw [hpc]
      rfl
    · rw [hpc]
      rfl
  | dropped t call hpc =>
    have hclean := h.drop_cleans hpc
    refine hl.goto ?_ ?_ rfl (contents_clean hclean) rfl hclean.fields.1
    · rw [hpc]
      rfl
    · rw [hpc]
      rfl
  | drop t x y hpc hy =>
    refine Linear.goto (m := w.mem) hl ?_ ?_ rfl rfl rfl rfl
    · rw [hpc]
      rfl
    · rw [hpc]
      rfl
  | release x hx => exact Lin.silent hl rfl rfl rfl fun _ _ => rfl

/-- An entry that is about to be deleted stays wanted. -/
theorem Wanted.later {m m' : Mem T} {pc : Pc T} (h : Wanted m pc) (hok : PcOk m tgt pc)
    (hm : Later m m') : Wanted m' pc := by
  cases pc with
  | call call =>
    cases call with
    | popDelete cond x =>
      rcases h with hdead | hvalue
      · exact .inl (hm.dead x hdead)
      · refine .inr ?_
        rw [hm.value x hok]
        exact hvalue
    | _ => exact trivial
  | _ => exact trivial

/-- `cleanup_newest` returns to the operation that it was called for. -/
theorem cleaned_running {m : Mem T} {k : Clean T} {o : Option Addr} {call' : Call T}
    (h : (m.cleaned k o).2 = .running call') :
    call'.op = k.op ∧ Wanted (m.cleaned k o).1 (.call call') := by
  unfold Mem.cleaned Mem.evaluate at h ⊢
  cases k with
  | push p =>
    simp only at h ⊢
    split at h
    · split at h
      · cases h
        exact ⟨rfl, trivial⟩
      · cases h
        exact ⟨rfl, trivial⟩
    · cases h
  | popIf cond =>
    cases o with
    | none => cases h
    | some x =>
      cases h
      exact ⟨rfl, trivial⟩
  | popped cond e => cases h
  | peek => cases h
  | isEmpty => cases h

theorem cleanup_running {m : Mem T} {k : Clean T} {o : Option Addr} {call' : Call T}
    (h : (m.cleanup k o).2 = .running call') :
    call'.op = k.op ∧ Wanted (m.cleanup k o).1 (.call call') := by
  cases o with
  | none => exact cleaned_running h
  | some x =>
    cases h
    exact ⟨rfl, trivial⟩

/-- A call goes on with its operation. When it goes to the deletion of an entry, it has
evaluated the condition of `pop_if`. -/
theorem step_running {m : Mem T} {call call' : Call T} (h : (m.step call).2 = .running call') :
    call'.op = call.op ∧ Wanted (m.step call).1 (.call call') := by
  cases call with
  | loadNewest k => exact cleanup_running h
  | cleanDeleted k x =>
    simp only [Mem.step] at h ⊢
    split at h
    · cases h
      exact ⟨rfl, trivial⟩
    · rename_i hlive
      rw [if_neg hlive]
      exact cleaned_running h
  | cleanNext k x call =>
    simp only [Mem.step] at h ⊢
    cases hout : (call.step m.heap).2 with
    | running c =>
      rw [hout] at h
      cases h
      exact ⟨rfl, trivial⟩
    | done next =>
      rw [hout] at h
      cases h
      exact ⟨rfl, trivial⟩
  | cleanExchange k x next =>
    simp only [Mem.step] at h ⊢
    split at h
    · rename_i hnewest
      rw [if_pos hnewest]
      exact cleanup_running h
    · rename_i hnewest
      rw [if_neg hnewest]
      exact cleanup_running h
  | swapLink p e newest =>
    cases h
    exact ⟨rfl, trivial⟩
  | attach p e newest =>
    simp only [Mem.step] at h ⊢
    split at h
    · cases h
    · rename_i hne
      rw [if_neg hne]
      exact cleanup_running h
  | popGetShared cond x =>
    simp only [Mem.step] at h ⊢
    split at h
    · cases h
      exact ⟨rfl, trivial⟩
    · cases h
      exact ⟨rfl, trivial⟩
  | popDeleted cond x =>
    simp only [Mem.step] at h ⊢
    split at h
    · cases h
    · rename_i hc
      cases h
      refine ⟨rfl, ?_⟩
      rw [if_neg hc]
      show m.heap.isDeleted x = true ∨ (m.heap.value x).any cond = true
      cases hdead : m.heap.isDeleted x with
      | true => exact .inl rfl
      | false =>
        refine .inr ?_
        rw [hdead] at hc
        simpa using hc
  | popDelete cond x =>
    simp only [Mem.step] at h ⊢
    split at h
    · cases h
      exact ⟨rfl, trivial⟩
    · cases h
      exact ⟨rfl, trivial⟩

/-- What each thread is about to delete is wanted, in every step. -/
theorem wanted_step (h : Inv w tgt) (hwant : ∀ t, Wanted w.mem (w.pc t)) {a : Action T n}
    (hw : w.step a = some w') (u : Fin n) : Wanted w'.mem (w'.pc u) := by
  by_cases hu : actor a = some u
  · have hgoto : ∀ {m' : Mem T} {pc : Pc T}, Wanted m' pc →
        Wanted m' ((w.goto u pc).pc u) := by
      intro m' pc hpc
      show Wanted m' (Function.update w.pc u pc u)
      rw [Function.update_self]
      exact hpc
    cases stepped hw with
    | call t call hpc =>
      cases hu
      have hcall : ∀ call', (w.mem.step call).2 = .running call' →
          Wanted (w.mem.step call).1 (.call call') := fun _ h => (step_running h).2
      generalize w.mem.step call = r at hcall
      obtain ⟨m', out⟩ := r
      cases out with
      | running call' => exact hgoto (hcall call' rfl)
      | done res => exact hgoto trivial
    | invoke t op hpc =>
      cases hu
      cases op with
      | _ => exact hgoto trivial
    | dropping t call call' hpc hout =>
      cases hu
      exact hgoto trivial
    | dropped t call hpc =>
      cases hu
      exact hgoto trivial
    | drop t x y hpc hy =>
      cases hu
      exact hgoto trivial
    | release x hx => cases hu
  · rw [pc_step hw hu]
    exact (hwant u).later (h.ok u) (later_step h hw)

end step

end Sdd.Proofs.Stack
