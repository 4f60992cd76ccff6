import Sdd.Lib.Alone
import Sdd.Proofs.Writes

/-!
# `Sdd.Proofs.Alone`: `next_ptr` without interference

A call of `next_ptr` that begins when the other threads stand still, on an entry `b`. Then
the links that it has read are still there when it compares and exchanges them (`Alone`),
and the entry that it finds is the first undeleted one behind `b`, which was not released:
no compare-and-exchange and no `get_shared` fails. `rounds` bounds the accesses that are
left: the call goes forward along the links first, and then back through its suspended
callers. When it returns, the link of `b` refers to its result.
-/

set_option autoImplicit false

namespace Sdd.Proofs

open Sdd.Lib

variable {T : Type} {h : Heap T} {order : List Addr} {tgt : Addr → Option Addr}
  {b c d x y z : Addr} {callers : List Frame} {f : Frame} {p : Ptr Addr}

/-- `y` is behind `x`, and all entries in between are deleted. -/
inductive Along (h : Heap T) : Addr → Addr → Prop where
  | first {x y : Addr} (hn : next h x = some y) : Along h x y
  | skip {x y z : Addr} (ha : Along h x y) (hd : h.isDeleted y = true) (hn : next h y = some z) :
      Along h x z

/-- `o` is the first undeleted entry behind `x`, if there is one. -/
def Found (h : Heap T) (tgt : Addr → Option Addr) (x : Addr) (o : Option Addr) : Prop :=
  o = (next h x).bind tgt ∧ ∀ y, o = some y → Along h x y ∧ h.isDeleted y = false

/-- The callers wait for a call on `c`, the outermost one of which is on `b`. The links that
they have read are still there. -/
def Waiting (h : Heap T) (b : Addr) : List Frame → Addr → Prop
  | [], c => c = b
  | f :: callers, c => h.isDeleted c = true ∧ h.link f.head = f.headNext ∧ Along h f.head c ∧
      Waiting h b callers f.head

/-- A call on `b` that runs alone. -/
def Alone (h : Heap T) (tgt : Addr → Option Addr) (b : Addr) : NextPtr → Prop
  | .loadHead callers head depth => callers.length + depth ≤ 64 ∧ Waiting h b callers head
  | .loadNext callers f n _ => callers.length + f.depth ≤ 64 ∧ h.link f.head = f.headNext ∧
      Along h f.head n ∧ Waiting h b callers f.head
  | .getShared callers f p => callers.length ≤ 64 ∧ h.link f.head = f.headNext ∧
      Found h tgt f.head p.addr ∧ p.addr ≠ none ∧ Waiting h b callers f.head
  | .exchange callers f p => callers.length ≤ 64 ∧ h.link f.head = f.headNext ∧
      Found h tgt f.head p.addr ∧ Waiting h b callers f.head

/-- How far an entry is from the end of the order. -/
def rank (order : List Addr) (x : Addr) : Nat := order.length - order.idxOf x

/-- A bound of the accesses that are left. -/
def rounds (order : List Addr) : NextPtr → Nat
  | .loadHead _ head _ => 2 * rank order head + 132
  | .loadNext _ _ n _ => 2 * rank order n + 133
  | .getShared callers _ _ => 2 * callers.length + 3
  | .exchange callers _ _ => 2 * callers.length + 2

/-- A call on `b` that runs alone, after an access: it goes on and has fewer than `k`
accesses left, or it has returned. -/
def AloneAfter (h : Heap T) (order : List Addr) (tgt : Addr → Option Addr) (b : Addr) (k : Nat) :
    Outcome NextPtr (Ptr Addr) → Prop
  | .running call => Alone h tgt b call ∧ rounds order call < k
  | .done p => next h b = p.addr ∧ Found h tgt b p.addr

theorem rank_lt {dead : Addr → Bool} (hxy : (listView order dead tgt).before x y) :
    rank order y < rank order x := by
  obtain ⟨hx, hy, hlt⟩ := hxy
  have hlen : order.idxOf y < order.length := List.idxOf_lt_length_iff.mpr hy
  unfold rank
  omega

namespace Along

/-- Two ways behind one another, over a deleted entry. -/
theorem trans (hxy : Along h x y) (hd : h.isDeleted y = true) (hyz : Along h y z) :
    Along h x z := by
  induction hyz with
  | first hn => exact .skip hxy hd hn
  | skip _ hd' hn ih => exact .skip ih hd' hn

/-- The entry leads to the same undeleted one. -/
theorem tgt_eq (hok : HeapOk h (listView order h.isDeleted tgt)) (ha : Along h x y) :
    tgt y = (next h x).bind tgt := by
  induction ha with
  | first hn =>
    rw [hn]
    rfl
  | @skip y z ha hd hn ih =>
    rw [← ih]
    have hy := hok.skip.dead y hd
    rw [hn] at hy
    exact hy.symm

variable (hok : HeapOk h (listView order h.isDeleted tgt)) (hx : x ∈ order)
include hok hx

/-- The entry comes later in the order. -/
theorem before (ha : Along h x y) : (listView order h.isDeleted tgt).before x y := by
  induction ha with
  | first hn => exact (hok.links _ _ hx hn).2
  | skip _ _ hn ih => exact hok.trans _ _ _ ih (hok.links _ _ ih.2.1 hn).2

/-- A write to the link of a later entry. -/
theorem setLink (ha : Along h x y) {p : Ptr Addr}
    (hdel : (h.setLink d p).isDeleted = h.isDeleted)
    (hyd : y = d ∨ (listView order h.isDeleted tgt).before y d) :
    Along (h.setLink d p) x y := by
  -- A link on the way belongs to an entry before `y`.
  have hne : ∀ {z}, (listView order h.isDeleted tgt).before z y → z ≠ d := by
    rintro z hzy rfl
    rcases hyd with rfl | hyd
    · exact hok.irrefl hzy
    · exact hok.irrefl (hok.trans _ _ _ hzy hyd)
  have hbefore := ha.before hok hx
  induction ha with
  | first hn =>
    refine .first ?_
    rw [next_setLink, Function.update_of_ne (hne hbefore)]
    exact hn
  | @skip y z ha hd hn ih =>
    have hxy := ha.before hok hx
    have hyz := (hok.links _ _ hxy.2.1 hn).2
    refine .skip (ih ?_ (fun {u} huy => hne (hok.trans _ _ _ huy hyz)) hxy) ?_ ?_
    · rcases hyd with rfl | hyd
      · exact .inr hyz
      · exact .inr (hok.trans _ _ _ hyz hyd)
    · rw [hdel]
      exact hd
    · rw [next_setLink, Function.update_of_ne (hne hyz)]
      exact hn

end Along

namespace Waiting

/-- The entries that calls are made on are attached. -/
theorem att (hok : HeapOk h (listView order h.isDeleted tgt)) (hb : b ∈ order)
    (hw : Waiting h b callers c) : c ∈ order := by
  induction callers generalizing c with
  | nil => exact hw ▸ hb
  | cons f callers ih =>
    obtain ⟨-, -, ha, hw⟩ := hw
    exact (ha.before hok (ih hw)).2.1

/-- What the innermost call finds is behind `b`. -/
theorem along (hw : Waiting h b callers c) (ha : Along h c y) : Along h b y := by
  induction callers generalizing c with
  | nil => exact hw ▸ ha
  | cons f callers ih =>
    obtain ⟨hd, -, hc, hw⟩ := hw
    exact ih hw (hc.trans hd ha)

/-- A write to the link that the innermost call is on, or to a later one. -/
theorem setLink (hok : HeapOk h (listView order h.isDeleted tgt)) (hb : b ∈ order)
    (hw : Waiting h b callers c) (hdel : (h.setLink d p).isDeleted = h.isDeleted)
    (hcd : c = d ∨ (listView order h.isDeleted tgt).before c d) :
    Waiting (h.setLink d p) b callers c := by
  induction callers generalizing c with
  | nil => exact hw
  | cons f callers ih =>
    obtain ⟨hd, hl, ha, hw⟩ := hw
    have hf := hw.att hok hb
    have hfc := ha.before hok hf
    have hfd : (listView order h.isDeleted tgt).before f.head d := by
      rcases hcd with rfl | hcd
      · exact hfc
      · exact hok.trans _ _ _ hfc hcd
    have hne : f.head ≠ d := by
      rintro rfl
      exact hok.irrefl hfd
    refine ⟨?_, ?_, ha.setLink hok hf hdel hcd, ih hw (.inr hfd)⟩
    · rw [hdel]
      exact hd
    · show Function.update h.link d p f.head = f.headNext
      rw [Function.update_of_ne hne]
      exact hl

end Waiting

/-- What a call on a deleted entry has found, its caller has found. -/
theorem Found.caller (hok : HeapOk h (listView order h.isDeleted tgt))
    {o : Option Addr} (hf : Found h tgt y o) (ha : Along h x y) (hd : h.isDeleted y = true) :
    Found h tgt x o := by
  refine ⟨?_, fun z hz => ⟨ha.trans hd (hf.2 z hz).1, (hf.2 z hz).2⟩⟩
  rw [← ha.tgt_eq hok, hf.1]
  exact (hok.skip.dead y hd).symm

/-- The inner loop has found an entry: the call goes on, or returns. -/
theorem found_alone (hok : HeapOk h (listView order h.isDeleted tgt)) (hb : b ∈ order)
    (hw : Waiting h b callers f.head) (hl : h.link f.head = f.headNext)
    (hf : Found h tgt f.head p.addr) (hlen : callers.length ≤ 64) {k : Nat}
    (hk : 2 * callers.length + 3 < k) :
    AloneAfter h order tgt b k (NextPtr.found callers f p) := by
  have hstop : ∀ {callers : List Frame} {f : Frame}, Waiting h b callers f.head →
      h.link f.head = f.headNext → Found h tgt f.head p.addr → callers.length ≤ 64 →
      2 * callers.length + 3 < k → AloneAfter h order tgt b k
        (if p.isNull then .running (.exchange callers { f with depth := 0 } p)
          else .running (.getShared callers { f with depth := 0 } p)) := by
    intro callers f hw hl hf hlen hk
    split
    · exact ⟨⟨hlen, hl, hf, hw⟩, Nat.lt_of_succ_lt hk⟩
    · rename_i hnull
      refine ⟨⟨hlen, hl, hf, fun hc => hnull ?_, hw⟩, hk⟩
      rw [Ptr.isNull, hc]
      rfl
  induction callers generalizing f with
  | nil =>
    unfold NextPtr.found
    by_cases heq : p.withTag f.headNext.tag ≠ f.headNext
    · simp only [if_pos heq]
      exact hstop hw hl hf hlen hk
    · simp only [if_neg heq]
      have hb' : f.head = b := hw
      subst hb'
      refine ⟨?_, hf⟩
      rw [not_not] at heq
      rw [next, hl, ← heq]
      rfl
  | cons g callers ih =>
    unfold NextPtr.found
    by_cases heq : p.withTag f.headNext.tag ≠ f.headNext
    · simp only [if_pos heq]
      exact hstop hw hl hf hlen hk
    · simp only [if_neg heq]
      obtain ⟨hd, hgl, ha, hgw⟩ := hw
      rw [List.length_cons] at hlen hk
      exact ih hgw hgl (hf.caller hok ha hd) (by omega) (by omega)

/-- An undeleted entry leads to itself. -/
theorem Found.bind_eq (hok : HeapOk h (listView order h.isDeleted tgt)) {o : Option Addr}
    (hf : Found h tgt x o) : o.bind tgt = o := by
  cases o with
  | none => rfl
  | some y => exact hok.skip.live y (hf.2 y rfl).2

/-- One turn of the inner loop, at an entry or at the end. -/
theorem inner_alone (hok : HeapOk h (listView order h.isDeleted tgt)) (hb : b ∈ order)
    (hw : Waiting h b callers f.head) (hl : h.link f.head = f.headNext)
    (hlen : callers.length + f.depth ≤ 64) (hp : ∀ y, p.addr = some y → Along h f.head y)
    (hnull : p.addr = none → (next h f.head).bind tgt = none) {k : Nat}
    (hk : ∀ y, p.addr = some y → 2 * rank order y + 133 < k) (hk' : 131 < k) :
    AloneAfter h order tgt b k (NextPtr.inner callers f p) := by
  unfold NextPtr.inner
  split
  · rename_i y hy
    exact ⟨⟨hlen, hl, hp y hy, hw⟩, hk y hy⟩
  · rename_i hy
    exact found_alone hok hb hw hl ⟨(hnull hy).symm, fun y hy => by cases hy⟩ (by omega) (by omega)

/-- The compare-and-exchange of a call that runs alone succeeds. -/
theorem exchange_alone (hok : HeapOk h (listView order h.isDeleted tgt)) (hb : b ∈ order)
    (ha : Alone h tgt b (.exchange callers f p))
    (hheld : ∀ y, p.addr = some y → h.released y = false) :
    AloneAfter ((NextPtr.exchange callers f p).step h).1 order tgt b (2 * callers.length + 2)
      ((NextPtr.exchange callers f p).step h).2 := by
  obtain ⟨hlen, hl, hf, hw⟩ := ha
  have hatt := hw.att hok hb
  have hword : p.withTag f.headNext.tag = ⟨p.addr, (h.link f.head).tag⟩ := by
    rw [hl]
    rfl
  have hdel : (h.setLink f.head (p.withTag f.headNext.tag)).isDeleted = h.isDeleted := by
    rw [hword]
    exact isDeleted_setLink p.addr
  have hok' : HeapOk (h.setLink f.head (p.withTag f.headNext.tag))
      (listView order (h.setLink f.head (p.withTag f.headNext.tag)).isDeleted tgt) := by
    rw [hdel, hword]
    refine hok.setLink (hok.bound _ hatt) (fun _ => ?_) (fun _ y hy => ?_) fun _ => hheld
    · exact (hf.bind_eq hok).trans hf.1
    · have hbefore := (hf.2 y hy).1.before hok hatt
      exact ⟨hbefore.2.1, hbefore⟩
  have hnext : next (h.setLink f.head (p.withTag f.headNext.tag)) f.head = p.addr := by
    rw [next_setLink, Function.update_self]
    rfl
  have hfound : Found (h.setLink f.head (p.withTag f.headNext.tag)) tgt f.head p.addr := by
    refine ⟨?_, fun y hy => ⟨.first (hnext.trans hy), ?_⟩⟩
    · rw [hnext, hf.bind_eq hok]
    · rw [hdel]
      exact (hf.2 y hy).2
  simp only [NextPtr.step, if_pos hl]
  cases callers with
  | nil =>
    have hb' : f.head = b := hw
    subst hb'
    exact ⟨hnext, hfound⟩
  | cons g callers =>
    have hw' := hw.setLink hok hb hdel (.inl rfl)
    obtain ⟨hd, hgl, hga, hgw⟩ := hw'
    rw [List.length_cons] at hlen ⊢
    exact found_alone hok' hb hgw hgl (hfound.caller hok' hga hd) (by omega) (by omega)

/-- An access of a call that runs alone. -/
theorem nextPtr_alone {call : NextPtr} (hok : HeapOk h (listView order h.isDeleted tgt))
    (hb : b ∈ order) (ha : Alone h tgt b call)
    (hheld : ∀ y, call.holds = some y → h.released y = false)
    (hlive : ∀ y, Along h b y → h.isDeleted y = false → h.released y = false) :
    AloneAfter (call.step h).1 order tgt b (rounds order call) (call.step h).2 := by
  cases call with
  | loadHead callers head depth =>
    obtain ⟨hlen, hw⟩ := ha
    refine inner_alone (f := ⟨head, h.link head, depth⟩) hok hb hw rfl hlen (fun y hy => .first hy)
      (fun hn => ?_) (fun y hy => ?_) ?_
    · rw [next, hn]
      rfl
    · have hlt := rank_lt (Along.before hok (hw.att hok hb) (.first hy))
      show 2 * rank order y + 133 < 2 * rank order head + 132
      omega
    · show 131 < 2 * rank order head + 132
      omega
  | loadNext callers f n tag =>
    obtain ⟨hlen, hl, hn, hw⟩ := ha
    have hatt := (hn.before hok (hw.att hok hb)).2.1
    simp only [NextPtr.step]
    by_cases htag : (h.link n).tag ≠ .second
    · rw [if_pos htag]
      have hundel : h.isDeleted n = false := by
        cases hd : h.isDeleted n with
        | false => rfl
        | true => exact absurd (hok.tag_eq hd) htag
      refine found_alone hok hb hw hl ⟨?_, fun y hy => ?_⟩ (by omega) ?_
      · rw [← hn.tgt_eq hok]
        exact (hok.skip.live n hundel).symm
      · cases hy
        exact ⟨hn, hundel⟩
      · show 2 * callers.length + 3 < 2 * rank order n + 133
        omega
    · rw [if_neg htag]
      have hdead : h.isDeleted n = true := by
        rw [not_not] at htag
        simp [Heap.isDeleted, htag]
      split
      · rename_i hdepth
        refine ⟨⟨?_, hdead, hl, hn, hw⟩, Nat.lt_succ_self _⟩
        rw [List.length_cons]
        omega
      · refine inner_alone hok hb hw hl hlen (fun y hy => hn.skip hdead hy) (fun hnull => ?_)
          (fun y hy => ?_) ?_
        · rw [← hn.tgt_eq hok]
          refine (hok.skip.dead n hdead).trans ?_
          rw [next, hnull]
          rfl
        · have hlt := rank_lt (Along.before hok hatt (.first hy))
          show 2 * rank order y + 133 < 2 * rank order n + 133
          omega
        · show 131 < 2 * rank order n + 133
          omega
  | getShared callers f p =>
    obtain ⟨hlen, hl, hf, hnull, hw⟩ := ha
    obtain ⟨y, hy⟩ := Option.ne_none_iff_exists'.mp hnull
    have hrel := hlive y (hw.along (hf.2 y hy).1) (hf.2 y hy).2
    have hshared : h.getShared p = some y := by
      unfold Heap.getShared
      rw [hy]
      simp [Option.filter, hrel]
    simp only [NextPtr.step, hshared]
    exact ⟨⟨hlen, hl, hf, hw⟩, Nat.lt_succ_self _⟩
  | exchange callers f p => exact exchange_alone hok hb ha hheld

/-- A call begins. -/
theorem alone_start : Alone h tgt b (.start b) := ⟨Nat.le_refl _, rfl⟩

/-- A call of `next_shared` on `b` that runs alone. -/
def SharedAlone (h : Heap T) (tgt : Addr → Option Addr) (b : Addr) : NextShared → Prop
  | .nextPtr call => Alone h tgt b call
  | .getShared p => p.addr ≠ none ∧ next h b = p.addr ∧ Found h tgt b p.addr

theorem sharedAlone_start : SharedAlone h tgt b (.start b) := ⟨Nat.le_refl _, rfl⟩

/-- A bound of the accesses that are left. -/
def sharedRounds (order : List Addr) : NextShared → Nat
  | .nextPtr call => rounds order call
  | .getShared _ => 1

/-- A call of `next_shared` on `b` that runs alone, after an access. -/
def SharedAloneAfter (h : Heap T) (order : List Addr) (tgt : Addr → Option Addr) (b : Addr)
    (k : Nat) : Outcome NextShared (Option Addr) → Prop
  | .running call => SharedAlone h tgt b call ∧ sharedRounds order call < k
  | .done o => next h b = o ∧ Found h tgt b o

theorem one_lt_rounds (order : List Addr) (call : NextPtr) : 1 < rounds order call := by
  cases call <;> simp only [rounds] <;> omega

/-- An access of a call of `next_shared` that runs alone. -/
theorem nextShared_alone {call : NextShared}
    (hok : HeapOk h (listView order h.isDeleted tgt)) (hb : b ∈ order)
    (ha : SharedAlone h tgt b call) (hheld : ∀ y, call.holds = some y → h.released y = false)
    (hlive : ∀ y, Along h b y → h.isDeleted y = false → h.released y = false) :
    SharedAloneAfter (call.step h).1 order tgt b (sharedRounds order call) (call.step h).2 := by
  cases call with
  | nextPtr call =>
    have hafter := nextPtr_alone hok hb ha hheld hlive
    simp only [NextShared.step]
    split
    · rename_i h' call' heq
      rw [heq] at hafter
      exact hafter
    · rename_i h' p heq
      rw [heq] at hafter
      obtain ⟨hn, hf⟩ := hafter
      split
      · rename_i hnull
        rw [Option.isNone_iff_eq_none.mp hnull] at hn hf
        exact ⟨hn, hf⟩
      · rename_i hnull
        refine ⟨⟨fun hc => hnull ?_, hn, hf⟩, one_lt_rounds order call⟩
        rw [Ptr.isNull, hc]
        rfl
  | getShared p =>
    obtain ⟨hnull, hn, hf⟩ := ha
    obtain ⟨y, hy⟩ := Option.ne_none_iff_exists'.mp hnull
    have hrel := hlive y (hf.2 y hy).1 (hf.2 y hy).2
    have hshared : h.getShared p = some y := by
      unfold Heap.getShared
      rw [hy]
      simp [Option.filter, hrel]
    simp only [NextShared.step, hshared]
    rw [hy] at hn hf
    exact ⟨hn, hf⟩

section congr

variable {h' : Heap T} (hlink : h'.link = h.link)
include hlink

theorem next_congr : next h' = next h := by
  unfold next
  rw [hlink]

theorem isDeleted_congr : h'.isDeleted = h.isDeleted := by
  unfold Heap.isDeleted
  rw [hlink]

theorem Along.congr (ha : Along h x y) : Along h' x y := by
  induction ha with
  | first hn => exact .first ((congrFun (next_congr hlink) _).trans hn)
  | skip _ hd hn ih =>
    exact .skip ih ((congrFun (isDeleted_congr hlink) _).trans hd)
      ((congrFun (next_congr hlink) _).trans hn)

theorem Found.congr {o : Option Addr} (hf : Found h tgt x o) : Found h' tgt x o := by
  obtain ⟨htgt, hfound⟩ := hf
  refine ⟨?_, fun y hy => ⟨(hfound y hy).1.congr hlink, ?_⟩⟩
  · rw [next_congr hlink]
    exact htgt
  · rw [isDeleted_congr hlink]
    exact (hfound y hy).2

theorem Waiting.congr (hw : Waiting h b callers c) : Waiting h' b callers c := by
  induction callers generalizing c with
  | nil => exact hw
  | cons f callers ih =>
    obtain ⟨hd, hl, ha, hw⟩ := hw
    refine ⟨?_, ?_, ha.congr hlink, ih hw⟩
    · rw [isDeleted_congr hlink]
      exact hd
    · rw [hlink]
      exact hl

/-- The release of an entry changes nothing for a call that runs alone. -/
theorem Alone.congr {call : NextPtr} (ha : Alone h tgt b call) : Alone h' tgt b call := by
  cases call with
  | loadHead callers head depth => exact ⟨ha.1, ha.2.congr hlink⟩
  | loadNext callers f n tag =>
    obtain ⟨hlen, hl, hn, hw⟩ := ha
    exact ⟨hlen, (congrFun hlink _).trans hl, hn.congr hlink, hw.congr hlink⟩
  | getShared callers f p =>
    obtain ⟨hlen, hl, hf, hnull, hw⟩ := ha
    exact ⟨hlen, (congrFun hlink _).trans hl, hf.congr hlink, hnull, hw.congr hlink⟩
  | exchange callers f p =>
    obtain ⟨hlen, hl, hf, hw⟩ := ha
    exact ⟨hlen, (congrFun hlink _).trans hl, hf.congr hlink, hw.congr hlink⟩

theorem SharedAlone.congr {call : NextShared} (ha : SharedAlone h tgt b call) :
    SharedAlone h' tgt b call := by
  cases call with
  | nextPtr call => exact Alone.congr hlink ha
  | getShared p =>
    obtain ⟨hnull, hn, hf⟩ := ha
    exact ⟨hnull, (congrFun (next_congr hlink) _).trans hn, hf.congr hlink⟩

end congr

section ends

variable {S : Type} {own : S → Option S} {env : S → S → Prop} {done : S → Prop} {s : S}
  (heap : S → Heap T)

/-- What a system guarantees to a call that runs alone on `b`: the links are in order, and
what the call needs was not released. -/
structure Holds (h : Heap T) (order : List Addr) (tgt : Addr → Option Addr) (b : Addr)
    (held : Option Addr) : Prop where
  ok : HeapOk h (listView order h.isDeleted tgt)
  mem : b ∈ order
  held : ∀ y, held = some y → h.released y = false
  live : ∀ y, Along h b y → h.isDeleted y = false → h.released y = false

/-- A call in progress that makes its accesses one after the other returns. `At s call` says
that the system is in the state `s` before the next access of the call, and `mem s` are the
words that it sees. Each access keeps `A` and makes `m` smaller, or the call returns a result
with `P`. -/
theorem call_ends {M C R : Type} (mem : S → M) (step : M → C → M × Outcome C R)
    (At : S → C → Prop) (A : M → C → Prop) (m : M → C → Nat) (P : M → R → Prop) {call : C}
    (hstep : ∀ s call, At s call → A (mem s) call →
      (∀ call', (step (mem s) call).2 = .running call' →
        A (step (mem s) call).1 call' ∧ m (step (mem s) call).1 call' < m (mem s) call) ∧
      ∀ r, (step (mem s) call).2 = .done r → P (step (mem s) call).1 r)
    (henv : ∀ s s' call, At s call → env s s' →
      At s' call ∧ (A (mem s) call → A (mem s') call ∧ m (mem s') call = m (mem s) call))
    (hown : ∀ s call, At s call → ∃ s', own s = some s' ∧
      (∀ call', (step (mem s) call).2 = .running call' →
        At s' call' ∧ mem s' = (step (mem s) call).1) ∧
      ∀ r, (step (mem s) call).2 = .done r → P (step (mem s) call).1 r → Ends own env done s')
    (hs : At s call) (ha : A (mem s) call) : Ends own env done s := by
  induction hk : m (mem s) call using Nat.strongRecOn generalizing s call with
  | _ k ih =>
    refine Ends.of_step (fun s => At s call ∧ A (mem s) call ∧ m (mem s) call = k)
      (fun s s' hp he => ?_) (fun s hp => ?_) ⟨hs, ha, hk⟩
    · obtain ⟨hp', hkeep⟩ := henv s s' call hp.1 he
      exact ⟨hp', (hkeep hp.2.1).1, (hkeep hp.2.1).2.trans hp.2.2⟩
    · obtain ⟨hat, ha, hk⟩ := hp
      obtain ⟨hrun, hret⟩ := hstep s call hat ha
      obtain ⟨s', hs', hrunning, hdone⟩ := hown s call hat
      refine ⟨s', hs', ?_⟩
      cases hout : (step (mem s) call).2 with
      | running call' =>
        obtain ⟨ha', hlt⟩ := hrun call' hout
        obtain ⟨hat', hmem⟩ := hrunning call' hout
        rw [← hmem] at ha' hlt
        exact ih _ (hk ▸ hlt) hat' ha' rfl
      | done r => exact hdone r hout (hret r hout)

/-- A call of `next_ptr` returns. -/
theorem nextPtr_ends (order : List Addr) (tgt : Addr → Option Addr) (b : Addr)
    (At : S → NextPtr → Prop)
    (hat : ∀ s call, At s call → Holds (heap s) order tgt b call.holds)
    (henv : ∀ s s' call, At s call → env s s' → At s' call ∧ (heap s').link = (heap s).link)
    (hown : ∀ s call, At s call → ∃ s', own s = some s' ∧
      (∀ call', (call.step (heap s)).2 = .running call' →
        At s' call' ∧ heap s' = (call.step (heap s)).1) ∧
      ∀ p, (call.step (heap s)).2 = .done p → next (call.step (heap s)).1 b = p.addr ∧
        Found (call.step (heap s)).1 tgt b p.addr → Ends own env done s')
    (hs : At s (.start b)) : Ends own env done s := by
  refine call_ends heap NextPtr.step At (fun h => Alone h tgt b) (fun _ => rounds order)
    (fun h p => next h b = p.addr ∧ Found h tgt b p.addr) (fun s call hs ha => ?_)
    (fun s s' call hs he => ?_) hown hs alone_start
  · obtain ⟨hok, hb, hheld, hlive⟩ := hat s call hs
    have hafter := nextPtr_alone hok hb ha hheld hlive
    refine ⟨fun call' hout => ?_, fun p hout => ?_⟩
    · rw [hout] at hafter
      exact hafter
    · rw [hout] at hafter
      exact hafter
  · obtain ⟨hs', hlink⟩ := henv s s' call hs he
    exact ⟨hs', fun ha => ⟨ha.congr hlink, rfl⟩⟩

/-- A call of `next_shared` returns. -/
theorem nextShared_ends (order : List Addr) (tgt : Addr → Option Addr) (b : Addr)
    (At : S → NextShared → Prop)
    (hat : ∀ s call, At s call → Holds (heap s) order tgt b call.holds)
    (henv : ∀ s s' call, At s call → env s s' → At s' call ∧ (heap s').link = (heap s).link)
    (hown : ∀ s call, At s call → ∃ s', own s = some s' ∧
      (∀ call', (call.step (heap s)).2 = .running call' →
        At s' call' ∧ heap s' = (call.step (heap s)).1) ∧
      ∀ o, (call.step (heap s)).2 = .done o → next (call.step (heap s)).1 b = o ∧
        Found (call.step (heap s)).1 tgt b o → Ends own env done s')
    (hs : At s (.start b)) : Ends own env done s := by
  refine call_ends heap NextShared.step At (fun h => SharedAlone h tgt b)
    (fun _ => sharedRounds order)
    (fun h o => next h b = o ∧ Found h tgt b o) (fun s call hs ha => ?_)
    (fun s s' call hs he => ?_) hown hs sharedAlone_start
  · obtain ⟨hok, hb, hheld, hlive⟩ := hat s call hs
    have hafter := nextShared_alone hok hb ha hheld hlive
    refine ⟨fun call' hout => ?_, fun o hout => ?_⟩
    · rw [hout] at hafter
      exact hafter
    · rw [hout] at hafter
      exact hafter
  · obtain ⟨hs', hlink⟩ := henv s s' call hs he
    exact ⟨hs', fun ha => ⟨ha.congr hlink, rfl⟩⟩

end ends

end Sdd.Proofs
