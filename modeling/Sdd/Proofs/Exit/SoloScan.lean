import Sdd.Proofs.Exit.Solo

/-!
# `Sdd.Proofs.Exit.SoloScan`: a scan that nobody disturbs

`scan_ends` is about the walk of `scan` when the other threads stand still and their collectors
are inactive or obsolete: it ends, the epoch changes, no obsolete collector is left in the chain,
and those that were there are on the current list of the own collector.
-/

set_option autoImplicit false

namespace Sdd.Proofs.Exit

open Sdd.Collector Sdd.Lib

variable {w w₁ w' : Process} {t : Tid} {c d : CollectorId} {known : StateByte}
  {front rest : List CollectorId}

/-- The walk stands between `front` and `rest`. -/
structure Scanning (t : Tid) (c : CollectorId) (known : StateByte) (front rest : List CollectorId)
    (w : Process) : Prop where
  live : Live t c w
  pc : w.base.pc t = .scan c known front.getLast? rest.head?
  linked : Linked (nextLinks w.base) w.base.chainHead.addr (front ++ rest)
  nodup : (front ++ rest).Nodup
  quiet : ∀ d ∈ rest, d ≠ c → Invalid w.base d ∨ (w.base.collectors d).state.inactive = true

/-- What the walk does with the collectors `rest`. -/
structure Scanned (t : Tid) (c : CollectorId) (known : StateByte) (front rest : List CollectorId)
    (w w' : Process) : Prop where
  live : Live t c w'
  pc : w'.base.pc t = .unlockChain c
  epoch : w'.base.epoch = known.epoch.next
  tag : w'.base.chainHead.tag = w.base.chainHead.tag
  linked : ∃ l, Linked (nextLinks w'.base) w'.base.chainHead.addr (front ++ l) ∧
    ∀ d ∈ l, d ∈ rest ∧ ¬Invalid w.base d
  state : ∀ d, (w'.base.collectors d).state = (w.base.collectors d).state
  readers : (w'.base.collectors c).numReaders = (w.base.collectors c).numReaders
  announcement : (w'.base.collectors c).announcement = (w.base.collectors c).announcement
  previous : (w'.base.collectors c).previousInstanceLink =
    (w.base.collectors c).previousInstanceLink
  next : (w'.base.collectors c).nextInstanceLink = (w.base.collectors c).nextInstanceLink
  current : ∃ new, (w'.base.collectors c).currentInstanceLink =
      new ++ (w.base.collectors c).currentInstanceLink ∧
    ∀ d ∈ rest, Invalid w.base d → .collector d ∈ new
  others : others w'.base c = others w.base c
  dropped : w'.base.dropped = w.base.dropped

/-- What it means for the own lists that the collector `d` was taken out of the chain. -/
structure Cut (c d : CollectorId) (w w' : Process) : Prop where
  tag : w'.base.chainHead.tag = w.base.chainHead.tag
  state : ∀ e, (w'.base.collectors e).state = (w.base.collectors e).state
  readers : (w'.base.collectors c).numReaders = (w.base.collectors c).numReaders
  announcement : (w'.base.collectors c).announcement = (w.base.collectors c).announcement
  previous : (w'.base.collectors c).previousInstanceLink =
    (w.base.collectors c).previousInstanceLink
  next : (w'.base.collectors c).nextInstanceLink = (w.base.collectors c).nextInstanceLink
  current : (w'.base.collectors c).currentInstanceLink =
    .collector d :: (w.base.collectors c).currentInstanceLink
  others : others w'.base c = others w.base c
  dropped : w'.base.dropped = w.base.dropped

/-- The own collector is not obsolete. -/
theorem Live.valid (h : Live t c w) : ¬Invalid w.base c := by
  obtain ⟨g, hg⟩ := inv_of_run h.run
  intro hi
  have hv := (hg.owning.registered t c h.own).1
  unfold Invalid at hi
  rw [hv] at hi
  cases hi

/-- The walk passes a collector. -/
theorem Scanned.pass (h : Scanned t c known (front ++ [d]) rest w₁ w')
    (hd : ¬Invalid w.base d)
    (hcoll : w₁.base.collectors = w.base.collectors)
    (hhead : w₁.base.chainHead = w.base.chainHead) (hdropped : w₁.base.dropped = w.base.dropped) :
    Scanned t c known front (d :: rest) w w' := by
  have hinv : ∀ e, Invalid w₁.base e ↔ Invalid w.base e := fun e => by
    unfold Invalid
    rw [hcoll]
  obtain ⟨l, hl, hmem⟩ := h.linked
  obtain ⟨new, hnew, hobs⟩ := h.current
  refine
    { live := h.live
      pc := h.pc
      epoch := h.epoch
      tag := by rw [h.tag, hhead]
      linked := ⟨d :: l, by rwa [List.append_assoc] at hl, fun e he => ?_⟩
      state := fun e => by rw [h.state, hcoll]
      readers := by rw [h.readers, hcoll]
      announcement := by rw [h.announcement, hcoll]
      previous := by rw [h.previous, hcoll]
      next := by rw [h.next, hcoll]
      current := ⟨new, by rw [hnew, hcoll], fun e he hi => ?_⟩
      others := ?_
      dropped := by rw [h.dropped, hdropped] }
  -- The collector that was passed over stays in the chain, and it is not INVALID.
  · rcases List.mem_cons.mp he with rfl | he
    · exact ⟨List.mem_cons_self, hd⟩
    · obtain ⟨hmem, hvalid⟩ := hmem e he
      exact ⟨List.mem_cons_of_mem d hmem, fun hi => hvalid ((hinv e).mpr hi)⟩
  · rcases List.mem_cons.mp he with rfl | he
    · exact absurd hi hd
    · exact hobs e he ((hinv e).mpr hi)
  · rw [h.others]
    unfold Exit.others
    rw [hcoll]

/-- The walk passes a collector that is not obsolete. -/
theorem Scanning.pass (h : Scanning t c known front (d :: rest) w) (hd : ¬Invalid w.base d) :
    ∃ w₁, Solo t w w₁ ∧ Scanning t c known (front ++ [d]) rest w₁ ∧
      w₁.base.collectors = w.base.collectors ∧ w₁.base.chainHead = w.base.chainHead ∧
      w₁.base.dropped = w.base.dropped := by
  have hnext : (w.base.collectors d).nextLink = rest.head? := h.linked.after.head_eq
  have hlinked : Linked (nextLinks w.base) w.base.chainHead.addr (front ++ [d] ++ rest) := by
    rw [List.append_assoc]
    exact h.linked
  have hnodup : (front ++ [d] ++ rest).Nodup := by
    rw [List.append_assoc]
    exact h.nodup
  have hquiet : ∀ e ∈ rest, e ≠ c →
      Invalid w.base e ∨ (w.base.collectors e).state.inactive = true :=
    fun e he => h.quiet e (List.mem_cons_of_mem d he)
  have hlast : (front ++ [d]).getLast? = some d := List.getLast?_concat
  by_cases hdc : d = c
  · -- The own collector is passed over.
    subst hdc
    have hs : w.base.step ⟨t, .proceed⟩ =
        some (w.base.goto t (.scan d known (some d) (w.base.collectors d).nextLink)) := by
      simp only [World.step, World.proceed, h.pc, World.scan, List.head?_cons, if_true]
    refine ⟨_, .tail _ .refl rfl (step_live h.live.stage hs), ?_, rfl, rfl, rfl⟩
    refine ⟨h.live.next hs rfl, ?_, hlinked, hnodup, hquiet⟩
    rw [hlast, ← hnext]
    exact Function.update_self _ _ _
  · have hs : w.base.step ⟨t, .proceed⟩ = some (w.base.goto t (.scanNext c known front.getLast? d
        (w.base.collectors d).state)) := by
      simp only [World.step, World.proceed, h.pc, World.scan, List.head?_cons, if_neg hdc]
    have h₁ := h.live.next hs rfl
    have hpc₁ : (w.base.goto t (.scanNext c known front.getLast? d
        (w.base.collectors d).state)).pc t = .scanNext c known front.getLast? d
          (w.base.collectors d).state := Function.update_self _ _ _
    -- The state of the collector is inactive, so its epoch does not stop the scan.
    have hinactive : (w.base.collectors d).state.inactive = true :=
      (h.quiet d List.mem_cons_self hdc).resolve_left hd
    have hs₁ : (w.base.goto t (.scanNext c known front.getLast? d
        (w.base.collectors d).state)).step ⟨t, .proceed⟩ =
          some ((w.base.goto t (.scanNext c known front.getLast? d
            (w.base.collectors d).state)).goto t (.scan c known (some d)
              (w.base.collectors d).nextLink)) := by
      simp only [World.step, World.proceed, hpc₁, World.scanNext, hinactive, Bool.not_true,
        Bool.false_and, Bool.false_eq_true, if_false, World.goto_collectors]
      exact congrArg some (if_neg hd)
    refine ⟨_, .head _ rfl (step_live h.live.stage hs)
      (.tail _ .refl rfl (step_live h₁.stage hs₁)), ?_, rfl, rfl, rfl⟩
    refine ⟨h₁.next hs₁ rfl, ?_, hlinked, hnodup, hquiet⟩
    rw [hlast, ← hnext]
    exact Function.update_self _ _ _

/-- A write to a link, as seen by what does not read it. -/
theorem modify_link {B : Type} (π : Collector → B) {b : World} {p : CollectorId}
    {n : Option CollectorId} (hπ : ∀ k : Collector, π { k with nextLink := n } = π k)
    (e : CollectorId) :
    π ((b.modify p fun k => { k with nextLink := n }).collectors e) = π (b.collectors e) := by
  rw [World.modify_collectors]
  by_cases he : e = p
  · subst he
    rw [Function.update_self]
    exact hπ _
  · rw [Function.update_of_ne he]

/-- What the own collector takes onto its current list. -/
theorem cut_of_collect {x : World} (hc : w'.base.collectors = (x.modify c
      (·.collect (.collector d))).collectors)
    (htag : w'.base.chainHead.tag = w.base.chainHead.tag)
    (hdropped : w'.base.dropped = w.base.dropped)
    (hlink : ∀ {B : Type} (π : Collector → B),
      (∀ (k : Collector) n, π { k with nextLink := n } = π k) →
        ∀ e, π (x.collectors e) = π (w.base.collectors e)) : Cut c d w w' := by
  have hcoll : ∀ {B : Type} (π : Collector → B),
      (∀ (k : Collector) n, π { k with nextLink := n } = π k) →
      (∀ k : Collector, π (k.collect (.collector d)) = π k) →
        ∀ e, π (w'.base.collectors e) = π (w.base.collectors e) := by
    -- A field that neither next_link nor a collection touches is what it was.
    intro B π hπ hcollect e
    rw [hc, World.modify_collectors, ← hlink π hπ e]
    by_cases he : e = c
    · subst he
      rw [Function.update_self]
      exact hcollect _
    · rw [Function.update_of_ne he]
  refine
    { tag := htag
      state := hcoll (·.state) (fun _ _ => rfl) fun _ => rfl
      readers := hcoll (·.numReaders) (fun _ _ => rfl) (fun _ => rfl) c
      announcement := hcoll (·.announcement) (fun _ _ => rfl) (fun _ => rfl) c
      previous := hcoll (·.previousInstanceLink) (fun _ _ => rfl) (fun _ => rfl) c
      next := hcoll (·.nextInstanceLink) (fun _ _ => rfl) (fun _ => rfl) c
      current := ?_
      others := ?_
      dropped := hdropped }
  · rw [hc, World.modify_collectors, Function.update_self,
      ← hlink (·.currentInstanceLink) (fun _ _ => rfl) c]
    rfl
  · funext e
    by_cases he : e = c
    · subst he
      unfold Exit.others
      rw [Function.update_self, Function.update_self]
    · rw [others_of_ne he, others_of_ne he, hc, World.modify_collectors, Function.update_of_ne he]
      exact hlink (·.garbage) (fun _ _ => rfl) e

/-- An obsolete collector is taken out of the chain, at its head or behind another one. -/
theorem Live.unlink (h : Live t c w)
    (hpc : w.base.pc t = .unlink c known front.getLast? d rest.head?)
    (hlinked : Linked (nextLinks w.base) w.base.chainHead.addr (front ++ d :: rest))
    (hnodup : (front ++ d :: rest).Nodup)
    (hquiet : ∀ e ∈ rest, e ≠ c → Invalid w.base e ∨ (w.base.collectors e).state.inactive = true) :
    ∃ w₁, Solo t w w₁ ∧ Scanning t c known front rest w₁ ∧ Cut c d w w₁ := by
  have hnext : (w.base.collectors d).nextLink = rest.head? := hlinked.after.head_eq
  have hrest : Linked (nextLinks w.base) rest.head? rest := by
    rw [← hnext]
    exact hlinked.after
  have hnodup' : (front ++ rest).Nodup :=
    hnodup.sublist (List.Sublist.append_left (List.sublist_cons_self d rest) front)
  -- The rest of the chain is as quiet as before.
  have hkept : ∀ {x : Process}, Cut c d w x → ∀ e ∈ rest, e ≠ c →
      Invalid x.base e ∨ (x.base.collectors e).state.inactive = true := by
    intro x hx e he hne
    unfold Invalid
    rw [hx.state]
    exact hquiet e he hne
  rcases front.eq_nil_or_concat with rfl | ⟨f, p, rfl⟩
  · -- At the head of the chain.
    have hs : w.base.step ⟨t, .proceed⟩ = some (({ w.base with
        chainHead := ⟨rest.head?, w.base.chainHead.tag⟩ }.modify c
          (·.collect (.collector d))).goto t (.scan c known none rest.head?)) := by
      simp only [World.step, World.proceed, hpc, List.getLast?_nil, World.unlink]
      exact congrArg some (if_pos hlinked.1)
    have hcut : Cut c d w ⟨({ w.base with
        chainHead := ⟨rest.head?, w.base.chainHead.tag⟩ }.modify c
          (·.collect (.collector d))).goto t (.scan c known none rest.head?), w.stage,
            Process.dropped w.base t .proceed ++ w.freed⟩ :=
      cut_of_collect (x := w.base) rfl rfl rfl fun _ _ _ => rfl
    refine ⟨_, .tail _ .refl rfl (step_live h.stage hs), ⟨h.next hs rfl,
      Function.update_self _ _ _, ?_, hnodup', hkept hcut⟩, hcut⟩
    exact hrest.congr fun e _ =>
      nextLinks_modify (w := w.base) (f := (·.collect (.collector d))) rfl e
  · -- Behind the collector `p`.
    rw [List.concat_eq_append] at hpc hlinked hnodup hnodup' ⊢
    rw [List.getLast?_concat] at hpc
    have hs : w.base.step ⟨t, .proceed⟩ = some (((w.base.modify p fun k =>
        { k with nextLink := rest.head? }).modify c (·.collect (.collector d))).goto t
          (.scan c known (some p) rest.head?)) := by
      simp only [World.step, World.proceed, hpc, World.unlink]
    have hcut : Cut c d w ⟨((w.base.modify p fun k =>
        { k with nextLink := rest.head? }).modify c (·.collect (.collector d))).goto t
          (.scan c known (some p) rest.head?), w.stage,
            Process.dropped w.base t .proceed ++ w.freed⟩ :=
      cut_of_collect (x := w.base.modify p fun k => { k with nextLink := rest.head? }) rfl rfl rfl
        fun π hπ e => modify_link π (hπ · _) e
    refine ⟨_, .tail _ .refl rfl (step_live h.stage hs), ⟨h.next hs rfl, ?_, ?_, hnodup',
      hkept hcut⟩, hcut⟩
    · rw [List.getLast?_concat]
      exact Function.update_self _ _ _
    · rw [List.append_assoc] at hlinked hnodup ⊢
      have hsplice : Linked (Function.update (nextLinks w.base) p rest.head?)
          w.base.chainHead.addr (f ++ p :: rest) := hlinked.splice (l := [d]) hnodup hrest
      exact hsplice.congr fun e _ => nextLinks_cutMid e

/-- The walk takes an obsolete collector out of the chain. -/
theorem Scanning.cut (h : Scanning t c known front (d :: rest) w) (hd : Invalid w.base d) :
    ∃ w₁, Solo t w w₁ ∧ Scanning t c known front rest w₁ ∧ Cut c d w w₁ := by
  have hnext : (w.base.collectors d).nextLink = rest.head? := h.linked.after.head_eq
  have hrest : Linked (nextLinks w.base) rest.head? rest := by
    rw [← hnext]
    exact h.linked.after
  have hdc : d ≠ c := by
    rintro rfl
    exact h.live.valid hd
  have hs : w.base.step ⟨t, .proceed⟩ = some (w.base.goto t (.scanNext c known front.getLast? d
      (w.base.collectors d).state)) := by
    simp only [World.step, World.proceed, h.pc, World.scan, List.head?_cons, if_neg hdc]
  have h₁ := h.live.next hs rfl
  have hpc₁ : (w.base.goto t (.scanNext c known front.getLast? d
      (w.base.collectors d).state)).pc t = .scanNext c known front.getLast? d
        (w.base.collectors d).state := Function.update_self _ _ _
  have hs₁ : (w.base.goto t (.scanNext c known front.getLast? d
      (w.base.collectors d).state)).step ⟨t, .proceed⟩ =
        some ((w.base.goto t (.scanNext c known front.getLast? d
          (w.base.collectors d).state)).goto t (.unlink c known front.getLast? d rest.head?)) := by
    simp only [World.step, World.proceed, hpc₁, World.scanNext, World.goto_collectors, hnext]
    exact congrArg some (if_pos hd)
  obtain ⟨w₁, hrun, hscan, hcut⟩ := (h₁.next hs₁ rfl).unlink (Function.update_self _ _ _)
    h.linked h.nodup fun e he => h.quiet e (List.mem_cons_of_mem d he)
  exact ⟨w₁, .head _ rfl (step_live h.live.stage hs) (.head _ rfl (step_live h₁.stage hs₁) hrun),
    hscan, hcut.tag, hcut.state, hcut.readers, hcut.announcement, hcut.previous, hcut.next,
    hcut.current, hcut.others, hcut.dropped⟩

/-- The walk takes a collector out of the chain. -/
theorem Scanned.cut (h : Scanned t c known front rest w₁ w') (hd : Invalid w.base d)
    (hcut : Cut c d w w₁) : Scanned t c known front (d :: rest) w w' := by
  have hinv : ∀ e, Invalid w₁.base e ↔ Invalid w.base e := fun e => by
    unfold Invalid
    rw [hcut.state]
  obtain ⟨l, hl, hmem⟩ := h.linked
  obtain ⟨new, hnew, hobs⟩ := h.current
  refine
    { live := h.live
      pc := h.pc
      epoch := h.epoch
      tag := h.tag.trans hcut.tag
      linked := ⟨l, hl, fun e he => ?_⟩
      state := fun e => (h.state e).trans (hcut.state e)
      readers := h.readers.trans hcut.readers
      announcement := h.announcement.trans hcut.announcement
      previous := h.previous.trans hcut.previous
      next := h.next.trans hcut.next
      current := ⟨new ++ [.collector d], ?_, fun e he hi => ?_⟩
      others := h.others.trans hcut.others
      dropped := h.dropped.trans hcut.dropped }
  · obtain ⟨hrest, hvalid⟩ := hmem e he
    exact ⟨List.mem_cons_of_mem d hrest, fun hi => hvalid ((hinv e).mpr hi)⟩
  · rw [hnew, hcut.current, List.append_assoc]
    rfl
  · rcases List.mem_cons.mp he with rfl | he
    · exact List.mem_append_right new (List.mem_singleton_self _)
    · exact List.mem_append_left _ (hobs e he ((hinv e).mpr hi))

/-- The walk ends, and no obsolete collector is left behind it. -/
theorem scan_ends (h : Scanning t c known front rest w) :
    ∃ w', Solo t w w' ∧ Scanned t c known front rest w w' := by
  induction rest generalizing w front with
  | nil =>
    have hs : w.base.step ⟨t, .proceed⟩ =
        some ({ w.base with epoch := known.epoch.next }.goto t (.unlockChain c)) := by
      simp only [World.step, World.proceed, h.pc, List.head?_nil, World.scan]
    refine ⟨_, .tail _ .refl rfl (step_live h.live.stage hs), ?_⟩
    exact
      { live := h.live.next hs rfl
        pc := Function.update_self _ _ _
        epoch := rfl
        tag := rfl
        linked := ⟨[], h.linked, fun _ hd => absurd hd List.not_mem_nil⟩
        state := fun _ => rfl
        readers := rfl
        announcement := rfl
        previous := rfl
        next := rfl
        current := ⟨[], rfl, fun _ hd => absurd hd List.not_mem_nil⟩
        others := rfl
        dropped := rfl }
  | cons d rest ih =>
    by_cases hd : Invalid w.base d
    · obtain ⟨w₁, hrun₁, hscan, hcut⟩ := h.cut hd
      obtain ⟨w', hrun, hdone⟩ := ih hscan
      exact ⟨w', hrun₁.trans hrun, hdone.cut hd hcut⟩
    · obtain ⟨w₁, hrun₁, hscan, hcoll, hhead, hdropped⟩ := h.pass hd
      obtain ⟨w', hrun, hdone⟩ := ih hscan
      exact ⟨w', hrun₁.trans hrun, hdone.pass hd hcoll hhead hdropped⟩

end Sdd.Proofs.Exit
