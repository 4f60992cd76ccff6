import Sdd.Proofs.PushIf.Entries
import Sdd.Proofs.PushIf.Loop
import Sdd.Proofs.Stack.Invariant

/-!
# `Sdd.Proofs.PushIf.Stack`: a failed `push_if` on a stack

The stack is a lawful container. An access of a call is a write that attaches nothing (`Written`)
and a walk to the next access (`Walks`), or it is the store to the link of the new entry, or the
compare-and-exchange that attaches it. `step_cases` is what an access of a call can be.
-/

set_option autoImplicit false

namespace Sdd.Proofs.PushIf.Stack

open Sdd.Lib Sdd.Stack Sdd.PushIf
open Sdd.Proofs.Stack (Fits PcOk CallInv CleanOk PushOk ownEntry cleanEntry pcEntry Stepped
  stepped inv_step pc_step)

variable {T : Type} {n : Nat} {m m₁ : Mem T} {w w' : World T n} {t : Fin n} {c : Call T}
  {tgt : Addr → Option Addr} {r : Mem T × Outcome (Call T) Res}

/-- A walk of a call with its push. -/
inductive Walks (m : Mem T) : Option (Push T) → Mem T × Outcome (Call T) Res → Prop where
  | running (c : Call T) (hattach : World.attaching (.call c) = false) :
      Walks m c.pushing (m, .running c)
  | creates (p : Push T) (newest : Option Addr) (hentry : p.entry = none) :
      Walks m (some p) ({ m with heap := m.heap.alloc p.val },
        .running (.swapLink { p with entry := some m.heap.nextAddr } m.heap.nextAddr newest))
  | rejected (p : Push T) : Walks m (some p) (m, .done .rejected)
  | done (res : Res) (hres : res ≠ .rejected) : Walks m none (m, .done res)

section walk

variable {p : Push T} {k : Clean T} {o : Option Addr}

/-- The condition is asked: the push goes on, or returns `Err`. -/
theorem walks_evaluate : Walks m (some p) (m.evaluate p o) := by
  unfold Mem.evaluate
  split
  · split
    · exact .running (.swapLink p _ o) rfl
    · rename_i hentry
      exact .creates p o hentry
  · exact .rejected p

/-- `cleanup_newest` returns to the operation that has called it. -/
theorem walks_cleaned : Walks m k.pushing (m.cleaned k o) := by
  unfold Mem.cleaned
  cases k with
  | push p => exact walks_evaluate
  | popIf cond =>
    cases o with
    | none => exact .done _ nofun
    | some x => exact .running (.popGetShared cond x) rfl
  | popped | peek | isEmpty => exact .done _ nofun

/-- The loop of `cleanup_newest` goes on, or returns. -/
theorem walks_cleanup : Walks m k.pushing (m.cleanup k o) := by
  cases o with
  | none => exact walks_cleaned
  | some x => exact .running (.cleanDeleted k x) rfl

/-- The same after an access to the list. -/
theorem walks_cleanNext {x : Addr} {out : Outcome NextShared (Option Addr)} :
    Walks m k.pushing (m.cleanNext k x out) := by
  unfold Mem.cleanNext
  split
  · exact .running (.cleanNext k x _) rfl
  · exact .running (.cleanExchange k x _) rfl

end walk

/-- A write that attaches and creates nothing. -/
structure Written (m m₁ : Mem T) : Prop where
  attached : m₁.attached = m.attached
  nextAddr : m₁.heap.nextAddr = m.heap.nextAddr
  value : m₁.heap.value = m.heap.value

/-- An access that writes nothing. -/
theorem Written.refl (m : Mem T) : Written m m := ⟨rfl, rfl, rfl⟩

/-- A list call changes links only. -/
theorem written_cleans {v : View} {h' : Heap T} (hc : Cleans v m.heap h') :
    Written m { m with heap := h' } :=
  ⟨rfl, hc.fields.2.2, hc.fields.1⟩

/-- What an access of a call can be. -/
inductive Access (m : Mem T) : Call T → Mem T × Outcome (Call T) Res → Prop where
  | walk (c : Call T) (m₁ : Mem T) (r : Mem T × Outcome (Call T) Res)
      (hswap : World.swapping (.call c) = false) (hw : Written m m₁) (hwalk : Walks m₁ c.pushing r) :
      Access m c r
  | swapLink (p : Push T) (e : Addr) (newest : Option Addr) (m₁ : Mem T) (hw : Written m m₁) :
      Access m (.swapLink p e newest) (m₁, .running (.attach p e newest))
  | attached (p : Push T) (e : Addr) (newest : Option Addr) (m₁ : Mem T)
      (hatt : m₁.attached = e :: m.attached) (hheap : m₁.heap = m.heap) :
      Access m (.attach p e newest) (m₁, .done (.pushed e))

/-- An access of a call. -/
theorem step_cases (hc : CallInv m.heap m.attached tgt c)
    (hheld : ∀ x, c.holds x = true → m.heap.released x = false) : Access m c (m.step c) := by
  have hself := Written.refl m
  cases c with
  | loadNewest k => exact .walk _ m _ rfl hself walks_cleanup
  | cleanDeleted k x =>
    refine .walk _ m _ rfl hself ?_
    simp only [Mem.step]
    split
    · exact .running (.cleanNext k x _) rfl
    · exact walks_cleaned
  | cleanNext k x call =>
    obtain ⟨-, -, -, hcall⟩ := hc
    have hclean := nextShared_cleans hcall fun y hy => hheld y (by simp [Call.holds, hy])
    exact .walk _ _ _ rfl (written_cleans hclean) walks_cleanNext
  | cleanExchange k x next =>
    simp only [Mem.step]
    split
    · exact .walk _ { m with newest := next } _ rfl ⟨rfl, rfl, rfl⟩ walks_cleanup
    · exact .walk _ m _ rfl hself walks_cleanup
  | swapLink p e newest => exact .swapLink p e newest _ ⟨rfl, rfl, rfl⟩
  | attach p e newest =>
    simp only [Mem.step]
    split
    · exact .attached p e newest _ rfl rfl
    · exact .walk _ m _ rfl hself (walks_cleanup (k := .push p))
  | popGetShared cond x =>
    refine .walk _ m _ rfl hself ?_
    simp only [Mem.step]
    split
    · exact .running (.cleanDeleted (.popIf cond) x) rfl
    · exact .running (.popDeleted cond x) rfl
  | popDeleted cond x =>
    refine .walk _ m _ rfl hself ?_
    simp only [Mem.step]
    split
    · exact .done _ (by simp)
    · exact .running (.popDelete cond x) rfl
  | popDelete cond x =>
    simp only [Mem.step]
    cases hlive : m.heap.isDeleted x with
    | true =>
      rw [deleteSelf_dead hlive]
      exact .walk _ m _ rfl hself (.running (.cleanDeleted (.popIf cond) x) rfl)
    | false =>
      rw [deleteSelf_eq hlive]
      exact .walk _ { m with heap := m.heap.setLink x _ } _ rfl ⟨rfl, rfl, rfl⟩
        (.running (.cleanDeleted (.popped cond x) x) rfl)

/-- A thread that has not moved is in the same place of `push_if`. -/
theorem place_eq {u : Fin n} (h : w'.pc u = w.pc u) :
    place (container T n) w' u = place (container T n) w u := by
  show ((w'.pc u).pushing.map _, World.swapping (w'.pc u), World.attaching (w'.pc u)) =
    ((w.pc u).pushing.map _, World.swapping (w.pc u), World.attaching (w.pc u))
  rw [h]

/-- The result of an access. -/
theorem rejects_running {op : Op T} : w.rejects (w.called t op (m, .running c)) = false := by
  unfold World.rejects
  rw [show (w.called t op (m, .running c)).history = w.history from rfl, List.drop_length]

/-- Only the answer `Err` is a rejection. -/
theorem rejects_done {op : Op T} {res : Res} : w.rejects (w.called t op (m, .done res)) =
    match res with | .rejected => true | _ => false := by
  have hhist : (w.called t op (m, .done res)).history = w.history ++ [.result t op res] := rfl
  unfold World.rejects
  rw [hhist, List.drop_left]
  cases res <;> rfl

/-- Where a thread is after an access of its call. -/
theorem push_running {op : Op T} : (container T n).push (w.called t op (m, .running c)) t =
    c.pushing.map fun p => (p.val, p.entry) := by
  show ((w.called t op (m, .running c)).pc t).pushing.map _ = _
  rw [show (w.called t op (m, .running c)).pc t = .call c from Function.update_self ..]
  rfl

/-- An operation that has returned pushes nothing. -/
theorem push_done {op : Op T} {res : Res} :
    (container T n).push (w.called t op (m, .done res)) t = none := by
  show ((w.called t op (m, .done res)).pc t).pushing.map _ = none
  rw [show (w.called t op (m, .done res)).pc t = .idle from Function.update_self ..]
  rfl

/-- What an access without an attachment does to the push. -/
theorem Walks.pushes {op : Op T} (hpc : w.pc t = .call c) (hw : Written w.mem m₁)
    (h : Walks m₁ c.pushing r) : Pushes (container T n) w (w.called t op r) t := by
  have hpush : (container T n).push w t = c.pushing.map fun p => (p.val, p.entry) := by
    show (w.pc t).pushing.map _ = _
    rw [hpc]
    rfl
  generalize c.pushing = o at h hpush
  cases h with
  | running c' hattach =>
    have hpush' : (container T n).push (w.called t op (m₁, .running c')) t =
        c'.pushing.map fun p => (p.val, p.entry) := push_running
    cases hc' : c'.pushing with
    | none =>
      rw [hc'] at hpush hpush'
      exact .idle hpush hpush' hw.attached hw.nextAddr
    | some p =>
      rw [hc'] at hpush hpush'
      refine .stays p.val p.entry hpush hpush' rejects_running hw.attached hw.nextAddr fun hc => ?_
      change World.attaching (Function.update w.pc t (.call c') t) = true at hc
      rw [Function.update_self, hattach] at hc
      cases hc
  | creates p newest hentry =>
    rw [Option.map_some, hentry] at hpush
    refine .creates p.val hpush ?_ rejects_running hw.attached ?_ (congrArg (· + 1) hw.nextAddr)
    · rw [push_running]
      show some (p.val, some m₁.heap.nextAddr) = some (p.val, some w.mem.heap.nextAddr)
      rw [hw.nextAddr]
    · show World.swapping (Function.update w.pc t _ t) = true
      rw [Function.update_self]
      rfl
  | rejected p =>
    exact .rejected p.val p.entry hpush push_done rejects_done hw.attached hw.nextAddr
  | done res hres => exact .idle hpush push_done hw.attached hw.nextAddr

/-- The references of an access. -/
theorem refs_attached (h : Stack.Inv w tgt) (t : Fin n) :
    ∀ x, x ∈ (w.refs t).taken ∨ x ∈ (w.refs t).released → x ∈ w.mem.attached := by
  have hok := h.ok t
  have hroots := fun x => h.one.roots () x
  show RefsIn (listView w.mem.attached w.mem.heap.isDeleted tgt) (w.refs t)
  unfold World.refs
  cases hpc : w.pc t with
  | idle => exact refsIn_none
  | drop call =>
    rw [hpc] at hok
    obtain ⟨b, hcall⟩ := hok
    exact callOk_refs hcall
  | call c =>
    rw [hpc] at hok
    cases c with
    | loadNewest | cleanDeleted | popDeleted => exact refsIn_none
    | cleanNext k x call => exact sharedOk_refs hok.2.2.2
    | cleanExchange k x next =>
      obtain ⟨-, hx, -, hret⟩ := hok
      simp only [Call.refs]
      split
      · refine refsIn_release fun y hy => ?_
        cases hy
        exact hx
      · exact refsIn_release fun y hy => (hret.att y hy).1
    | swapLink p e newest =>
      obtain ⟨-, -, hnewest⟩ := hok
      rintro x (hx | hx)
      · exact hnewest x (getShared_eq (Option.mem_toList.mp hx)).1
      · exact h.one.leads e x (Option.mem_toList.mp hx)
    | attach p e newest =>
      obtain ⟨-, -, hnewest, -⟩ := hok
      simp only [Call.refs]
      split
      · exact refsIn_release hnewest
      · exact refsIn_none
    | popGetShared cond x =>
      simp only [Call.refs]
      split
      · exact refsIn_none
      · refine refsIn_take fun y hy => ?_
        cases hy
        exact hok
    | popDelete cond x =>
      simp only [Call.refs]
      split
      · exact refsIn_none
      · refine refsIn_release fun y hy => ?_
        cases hy
        exact hok

/-- The invariant of a stack. -/
def Ok (w : World T n) : Prop := ∃ tgt, Stack.Inv w tgt

/-- A walk creates at most one entry. -/
theorem Walks.value {o : Option (Push T)} (h : Walks m o r) {x : Addr} (hx : x < m.heap.nextAddr) :
    r.1.heap.value x = m.heap.value x := by
  cases h with
  | running | rejected | done => rfl
  | creates p newest hentry => exact Function.update_of_ne (Nat.ne_of_lt hx) ..

/-- The memory after an access is the one that the access leaves. -/
theorem mem_called {op : Op T} : (w.called t op r).mem = r.1 := by
  obtain ⟨m, out⟩ := r
  cases out <;> rfl

/-- An access of the thread `t`. -/
theorem proceeds (h : Ok w) (hw : w.proceed t = some w') :
    Ok w' ∧ Proceeds (container T n) w w' t := by
  obtain ⟨tgt, hinv⟩ := h
  have hstep : w.step (.thread t .proceed) = some w' := hw
  have hother : ∀ u, u ≠ t → w'.pc u = w.pc u := fun u hu =>
    pc_step hstep fun hc => hu (Option.some.inj hc).symm
  have hrefs := refs_attached hinv t
  refine ⟨inv_step hinv hstep, ?_⟩
  -- A destructor.
  have hdrop : ∀ {call : NextPtr} {pc : Pc T}, w.pc t = .drop call → pc.pushing = none →
      Proceeds (container T n) w
        (World.goto { w with mem := { w.mem with heap := (call.step w.mem.heap).1 } } t pc) t := by
    intro call pc hpc hpush
    have hclean := written_cleans (hinv.drop_cleans hpc)
    refine ⟨.idle ?_ ?_ rfl hclean.nextAddr, fun hbegins _ => ?_, fun u hu =>
      place_eq (Function.update_of_ne hu ..), hrefs, fun x _ => congrFun hclean.value x⟩
    · show (w.pc t).pushing.map _ = none
      rw [hpc]
      rfl
    · show (Function.update w.pc t pc t).pushing.map _ = none
      rw [Function.update_self, hpush]
      rfl
    · change World.swapping (w.pc t) = true at hbegins
      rw [hpc] at hbegins
      cases hbegins
  cases stepped hstep with
  | dropping t call call' hpc hout => exact hdrop hpc rfl
  | dropped t call hpc => exact hdrop hpc rfl
  | call t c hpc =>
    have hok := hinv.ok t
    rw [hpc] at hok
    have haccess := step_cases hok fun x hx => hinv.held t x (by rw [hpc]; exact hx)
    generalize w.mem.step c = r at haccess hother
    cases haccess with
    | walk c m₁ r hswap hwrite hwalk =>
      refine ⟨hwalk.pushes hpc hwrite, fun hbegins _ => ?_, fun u hu => place_eq (hother u hu),
        hrefs, fun x hx => ?_⟩
      · change World.swapping (w.pc t) = true at hbegins
        rw [hpc, hswap] at hbegins
        cases hbegins
      · show (w.called t c.op r).mem.heap.value x = _
        rw [mem_called, hwalk.value (Nat.lt_of_lt_of_eq hx hwrite.nextAddr.symm), hwrite.value]
        rfl
    | swapLink p e newest m₁ hwrite =>
      have hpush : (container T n).push w t = some (p.val, p.entry) := by
        show (w.pc t).pushing.map _ = _
        rw [hpc]
        rfl
      have hattaching : World.attaching ((w.called t (.pushIf p.val p.cond)
          (m₁, .running (.attach p e newest))).pc t) = true := by
        rw [show (w.called t (.pushIf p.val p.cond) (m₁, .running (.attach p e newest))).pc t =
          .call (.attach p e newest) from Function.update_self ..]
        rfl
      refine ⟨.stays p.val p.entry hpush push_running rejects_running hwrite.attached
        hwrite.nextAddr fun _ => .inr ⟨?_, ?_⟩, fun _ _ => ⟨?_, hattaching⟩,
        fun u hu => place_eq (hother u hu), hrefs, fun x _ => congrFun hwrite.value x⟩
      · show World.swapping (w.pc t) = true
        rw [hpc]
        rfl
      · show World.attaching (w.pc t) = false
        rw [hpc]
        rfl
      · show ((container T n).push (w.called t (.pushIf p.val p.cond)
          (m₁, .running (.attach p e newest))) t).isSome = true
        rw [push_running]
        rfl
    | attached p e newest m₁ hatt hheap =>
      refine ⟨.attached p.val e ?_ ?_ push_done rejects_done (fun x => ?_)
        (congrArg Heap.nextAddr hheap), fun hbegins _ => ?_, fun u hu => place_eq (hother u hu),
        hrefs, fun x _ => congrFun (congrArg Heap.value hheap) x⟩
      · show (w.pc t).pushing.map _ = _
        rw [hpc, ← hok.2.1]
        rfl
      · show World.attaching (w.pc t) = true
        rw [hpc]
        rfl
      · show x ∈ m₁.attached ↔ _
        rw [hatt, List.mem_cons]
        exact or_comm
      · change World.swapping (w.pc t) = true at hbegins
        rw [hpc] at hbegins
        cases hbegins

/-- An invocation, a destructor or a release. -/
theorem acts {a : Action T n} (h : Ok w) (hw : (container T n).act w a = some w') :
    Ok w' ∧ Keeps (container T n) w w' ∧
      (∀ t, (container T n).actor a ≠ some t →
        place (container T n) w' t = place (container T n) w t) ∧
      ∀ t, (container T n).actor a = some t → (container T n).push w t = none ∧
        ∀ val entry, (container T n).push w' t = some (val, entry) →
          (container T n).supplies a = some val ∧ entry = none := by
  obtain ⟨tgt, hinv⟩ := h
  have hstep : w.step a = some w' := by
    cases a with
    | release x => exact hw
    | thread t act =>
      cases act with
      | proceed => cases hw
      | invoke | drop => exact hw
  have hother : ∀ u, (container T n).actor a ≠ some u →
      place (container T n) w' u = place (container T n) w u := by
    intro u hu
    refine place_eq (pc_step hstep fun hc => hu ?_)
    cases a <;> exact hc
  -- The thread was idle.
  have hidle : ∀ {t : Fin n}, w.pc t = .idle → (container T n).push w t = none := by
    intro t hpc
    show (w.pc t).pushing.map _ = none
    rw [hpc]
    rfl
  refine ⟨inv_step hinv hstep, ?_, hother, ?_⟩
  · cases stepped hstep with
    | invoke | drop | release => exact ⟨rfl, rfl, rfl⟩
    | call | dropping | dropped => cases hw
  · intro t ht
    cases stepped hstep with
    | invoke t op hpc =>
      cases ht
      refine ⟨hidle hpc, fun val entry hc => ?_⟩
      change (Function.update w.pc t (.call (.start op)) t).pushing.map _ = _ at hc
      rw [Function.update_self] at hc
      cases op with
      | pushIf val' cond =>
        cases hc
        exact ⟨rfl, rfl⟩
      | popIf | peek | isEmpty => cases hc
    | drop t x y hpc hy =>
      cases ht
      refine ⟨hidle hpc, fun val entry hc => ?_⟩
      change (Function.update w.pc t (.drop (.start y)) t).pushing.map _ = _ at hc
      rw [Function.update_self] at hc
      cases hc
    | release => cases ht
    | call | dropping | dropped => cases hw

end Sdd.Proofs.PushIf.Stack
