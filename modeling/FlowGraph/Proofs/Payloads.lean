import FlowGraph.Proofs.Iterations

/-!
What the fibers of one engine carry for one node. A fiber writes what its trigger carries before its first step and hands
it on to its children; the node is the same for all triggers. `Unmixed` says why they do not get into each other's way:
whatever stands in the queue before a fiber that has written carries the same as that fiber.
-/
namespace FlowGraph

/-- The trigger of the path gave these data outputs to the node. -/
def Fiber.Carries (f : Fiber) (x : NodeRef) (values : List (String × Value)) : Prop := f.entry = some (x, values)

/-- The fibers differ in nothing that matters for what they carry and what is left to do for them. -/
structure Fiber.Alike (f g : Fiber) : Prop where
  entry : g.entry = f.entry
  isWritten : g.isWritten = f.isWritten
  parent : g.parent = f.parent
  next : g.next = f.next
  listeners : g.listeners = f.listeners

theorem Fiber.Alike.refl (f : Fiber) : f.Alike f := ⟨rfl, rfl, rfl, rfl, rfl⟩

theorem Fiber.Alike.trans {f g h : Fiber} (hfg : f.Alike g) (hgh : g.Alike h) : f.Alike h :=
  ⟨hgh.entry.trans hfg.entry, hgh.isWritten.trans hfg.isWritten, hgh.parent.trans hfg.parent, hgh.next.trans hfg.next,
    hgh.listeners.trans hfg.listeners⟩

theorem Fiber.Carries.unique {f g : Fiber} {x : NodeRef} {us vs : List (String × Value)} (hu : f.Carries x us)
    (hv : g.Carries x vs) (h : f.entry = g.entry) : us = vs := by
  rw [Carries] at hu hv
  rw [h, hv] at hu
  simpa using hu.symm

namespace Engine

variable {e e' : Engine} {f : Nat} {x : NodeRef}

/-- The fiber at work, if there is one, and those behind it. -/
def line (e : Engine) : List Nat := e.current.toList ++ e.queue

theorem line_of_current (h : e.current = some f) : e.line = f :: e.queue := by
  rw [line, h]
  rfl

theorem line_of_rest (h : e.current = none) : e.line = e.queue := by
  rw [line, h]
  rfl

theorem mem_line {k : Nat} : k ∈ e.line ↔ e.current = some k ∨ k ∈ e.queue := by
  rw [line, List.mem_append, Option.mem_toList]

theorem alike_modifyFiber (e : Engine) (j : Nat) {g : Fiber → Fiber} (hg : ∀ f : Fiber, f.Alike (g f)) (k : Nat) :
    (e.fiber k).Alike ((e.modifyFiber j g).fiber k) := by
  rw [fiber_modifyFiber]
  split
  · exact hg _
  · exact .refl _

/-- The end of a fiber is told to its parent, which may be put in front of the queue. -/
theorem alike_finish (e : Engine) (f k : Nat) : (e.fiber k).Alike ((e.finish f).fiber k) := by
  have hmarked := e.alike_modifyFiber f (g := fun x => { x with finished := true }) (fun _ => ⟨rfl, rfl, rfl, rfl, rfl⟩) k
  unfold finish
  dsimp only
  split
  · exact .refl _
  · split
    · rename_i p _
      have htold := (e.modifyFiber f fun x => { x with finished := true }).alike_modifyFiber p
        (g := fun x => { x with pending := x.pending - 1 }) (fun _ => ⟨rfl, rfl, rfl, rfl, rfl⟩) k
      unfold childFinished
      dsimp only
      split
      · exact hmarked.trans htold
      · exact hmarked.trans htold
    · exact hmarked

/-- Nobody gets into the queue by the end of a fiber but its parent. -/
theorem queue_finish (e : Engine) (f : Nat) :
    (e.finish f).queue = e.queue ∨ ∃ p, (e.fiber f).parent = some p ∧ (e.finish f).queue = p :: e.queue := by
  unfold finish
  dsimp only
  split
  · exact .inl rfl
  · split
    · rename_i p hp
      unfold childFinished
      dsimp only
      split
      · exact .inr ⟨p, hp, rfl⟩
      · exact .inl rfl
    · exact .inl rfl

/-- A fiber that failed has nothing left to do. -/
theorem idle_abort (hf : f < e.fibers.size) : ((e.abort f).fiber f).next = none ∧ ((e.abort f).fiber f).listeners = [] := by
  have hsame := (e.modifyFiber f fun x => { x with isAborted := true, next := none, listeners := [] }).alike_finish f f
  have hstopped := e.fiber_modifyFiber f f fun x => { x with isAborted := true, next := none, listeners := [] }
  rw [if_pos ⟨rfl, hf⟩] at hstopped
  rw [hstopped] at hsame
  exact ⟨hsame.next, hsame.listeners⟩

/-- From `e` on to `e'` no fiber vanishes, and each carries what it carried. -/
structure Lasting (e e' : Engine) : Prop where
  size : e.fibers.size ≤ e'.fibers.size
  entry : ∀ k, k < e.fibers.size → (e'.fiber k).entry = (e.fiber k).entry

namespace Lasting

variable {e'' : Engine}

theorem refl (e : Engine) : Lasting e e := ⟨Nat.le_refl _, fun _ _ => rfl⟩

theorem trans (h : Lasting e e') (h' : Lasting e' e'') : Lasting e e'' :=
  ⟨Nat.le_trans h.size h'.size, fun k hk => (h'.entry k (Nat.lt_of_lt_of_le hk h.size)).trans (h.entry k hk)⟩

theorem of_fibers (h : e'.fibers = e.fibers) : Lasting e e' :=
  ⟨Nat.le_of_eq (congrArg Array.size h.symm), fun k _ => by rw [fiber_congr h]⟩

theorem modifyFiber (e : Engine) (f : Nat) {g : Fiber → Fiber} (hg : ∀ y, (g y).entry = y.entry) :
    Lasting e (e.modifyFiber f g) := by
  refine ⟨Nat.le_of_eq (size_modifyFiber ..).symm, fun k _ => ?_⟩
  rw [fiber_modifyFiber]
  split
  · exact hg _
  · rfl

theorem enter {root : Fiber} {kids : List Fiber} (h : Entered e e' root kids) : Lasting e e' := by
  refine ⟨?_, fun k hk => by rw [h.fiber_old hk]⟩
  rw [h.size]
  omega

theorem commit (hf : f < e.fibers.size) (node : NodeRef) (l : Option Listener) (wires : List Wire) :
    Lasting e (e.commit f node l wires) := by
  refine ⟨?_, fun k hk => ?_⟩
  · rw [commit_eq hf]
    simp
  · rw [fiber_commit hf, if_pos hk]
    split
    · exact onto_entry ..
    · rfl

theorem finish (e : Engine) (f : Nat) : Lasting e (e.finish f) := by
  refine ⟨?_, fun k _ => (e.alike_finish f k).entry⟩
  unfold Engine.finish childFinished
  dsimp only
  split
  · exact Nat.le_refl _
  · split
    · split <;> simp [Engine.resume]
    · simp

end Lasting

/-- Who stands before a fiber that has written what it carries for the node carries the same, or nothing for it. -/
def Aligned (e : Engine) (x : NodeRef) (line : List Nat) : Prop :=
  line.Pairwise fun a b => ∀ us vs, (e.fiber a).Carries x us → (e.fiber b).Carries x vs → (e.fiber b).isWritten = true → us = vs

/-- What the fibers carry for the node does not get mixed. `shows` tells what the node has at present, `fits` what it can
have, and `isBare` whether nothing is behind it. The fiber `c` may be about to fail. -/
structure Unmixed (x : NodeRef) (shows fits : List (String × Value) → Prop) (isBare : Prop) (c : Option Nat) (e : Engine) :
    Prop where
  aligned : e.Aligned x e.line
  shown : ∀ k ∈ e.line, ∀ vs, (e.fiber k).Carries x vs → (e.fiber k).isWritten = true → fits vs → shows vs
  bare : isBare → ∀ k ∈ e.line, ∀ vs, ¬ (e.fiber k).Carries x vs
  ready : ∀ k ∈ e.queue, ∀ vs, (e.fiber k).Carries x vs → (e.fiber k).isWritten = false → (e.fiber k).next.isSome = true
  written : ∀ k, e.current = some k → (e.fiber k).isWritten = true
  fit : ∀ k, e.current = some k → c ≠ some k → ∀ vs, (e.fiber k).Carries x vs → fits vs
  idle : ∀ k, c ≠ some k → ∀ vs, (e.fiber k).Carries x vs → (e.fiber k).isWritten = true → ¬ fits vs →
    (e.fiber k).next = none ∧ (e.fiber k).listeners = []
  heirs : ∀ k p, (e.fiber k).parent = some p →
    (e.fiber k).entry = (e.fiber p).entry ∧ ((e.fiber p).entry ≠ none → (e.fiber p).isWritten = true)
  distinct : ∀ k vs, (e.fiber k).Carries x vs → (vs.map (·.1)).Nodup

namespace Unmixed

variable {shows shows' fits : List (String × Value) → Prop} {isBare : Prop} {c : Option Nat}

theorem empty : Unmixed x shows fits isBare none {} where
  aligned := .nil
  shown k hk := absurd hk List.not_mem_nil
  bare _ k hk := absurd hk List.not_mem_nil
  ready k hk := absurd hk List.not_mem_nil
  written k hk := by cases hk
  fit k hk := by cases hk
  idle k _ vs hc := by cases hc
  heirs k p hp := by cases hp
  distinct k vs hc := by cases hc

/-- Nothing changes but what the node shows, and only where nobody counts on it. -/
theorem reshow (h : Unmixed x shows fits isBare c e) (hs : isBare ∨ ∀ vs, shows vs → shows' vs) :
    Unmixed x shows' fits isBare c e where
  aligned := h.aligned
  shown k hk vs hc hw hfit := by
    rcases hs with hbare | hs
    · exact absurd hc (h.bare hbare k hk vs)
    · exact hs vs (h.shown k hk vs hc hw hfit)
  bare := h.bare
  ready := h.ready
  written := h.written
  fit := h.fit
  idle := h.idle
  heirs := h.heirs
  distinct := h.distinct

/-- Only the queue, the fiber at work and what matters of the fibers count. -/
theorem alike (h : Unmixed x shows fits isBare c e) (halike : ∀ k, (e.fiber k).Alike (e'.fiber k)) (hq : e'.queue = e.queue)
    (hc : e'.current = e.current) : Unmixed x shows fits isBare c e' := by
  have hentry (k : Nat) : (e'.fiber k).entry = (e.fiber k).entry := (halike k).entry
  have hwritten (k : Nat) : (e'.fiber k).isWritten = (e.fiber k).isWritten := (halike k).isWritten
  have hparent (k : Nat) : (e'.fiber k).parent = (e.fiber k).parent := (halike k).parent
  have hnext (k : Nat) : (e'.fiber k).next = (e.fiber k).next := (halike k).next
  have hlisteners (k : Nat) : (e'.fiber k).listeners = (e.fiber k).listeners := (halike k).listeners
  have hline : e'.line = e.line := by rw [line, line, hq, hc]
  obtain ⟨haligned, hshown, hbare, hready, hwork, hfit, hidle, hheirs, hdistinct⟩ := h
  simp only [Aligned, Fiber.Carries] at haligned hshown hbare hready hfit hidle hdistinct
  constructor
  all_goals simp only [Aligned, Fiber.Carries, hentry, hwritten, hparent, hnext, hlisteners, hline, hq, hc]
  all_goals assumption

theorem congr (h : Unmixed x shows fits isBare c e) (hf : e'.fibers = e.fibers) (hq : e'.queue = e.queue)
    (hc : e'.current = e.current) : Unmixed x shows fits isBare c e' := by
  refine h.alike (fun k => ?_) hq hc
  rw [fiber_congr hf]
  exact .refl _

/-- The line gets shorter, or who was at work goes back to the queue. -/
theorem regroup (h : Unmixed x shows fits isBare c e) {d : Option Nat} {queue : List Nat}
    (hcurrent : ∀ k, d = some k → e.current = some k) (hline : (d.toList ++ queue).Sublist e.line) :
    Unmixed x shows fits isBare c { e with queue := queue, current := d } where
  aligned := h.aligned.sublist hline
  shown k hk := h.shown k (hline.subset hk)
  bare hb k hk := h.bare hb k (hline.subset hk)
  ready k hk vs hc hw := by
    rcases mem_line.1 (hline.subset (List.mem_append_right _ hk)) with hcur | hk
    · have hwritten := h.written k hcur
      rw [show (e.fiber k).isWritten = false from hw] at hwritten
      cases hwritten
    · exact h.ready k hk vs hc hw
  written k hk := h.written k (hcurrent k hk)
  fit k hk := h.fit k (hcurrent k hk)
  idle := h.idle
  heirs := h.heirs
  distinct := h.distinct

/-- The first of the line is over, and its parent takes its place. -/
theorem resume (h : Unmixed x shows fits isBare c e) {d : Option Nat} {p : Nat} {others : List Nat}
    (hcurrent : ∀ k, d = some k → e.current = some k) (hline : e.line = f :: others) (hp : (e.fiber f).parent = some p)
    (hf : ∀ vs, (e.fiber f).Carries x vs → (e.fiber f).isWritten = true) :
    Unmixed x shows fits isBare c { e with queue := p :: others, current := d } := by
  obtain ⟨hheir, hpw⟩ := h.heirs f p hp
  have hmem : f ∈ e.line := by
    rw [hline]
    exact List.mem_cons_self
  have hcarries {vs : List (String × Value)} (hc : (e.fiber p).Carries x vs) : (e.fiber f).Carries x vs := hheir.trans hc
  have hsub : (d.toList ++ p :: others).Sublist (f :: p :: others) := by
    cases d with
    | none => exact List.sublist_cons_self _ _
    | some k =>
      have hk := line_of_current (hcurrent k rfl)
      rw [hline] at hk
      cases hk
      exact List.Sublist.refl _
  have hto {k : Nat} (hk : k ∈ d.toList ++ p :: others) : k = p ∨ k ∈ e.line := by
    rcases List.mem_cons.1 (hsub.subset hk) with rfl | hk
    · exact .inr hmem
    · rcases List.mem_cons.1 hk with rfl | hk
      · exact .inl rfl
      · rw [hline]
        exact .inr (List.mem_cons_of_mem f hk)
  have haligned : e.Aligned x (f :: p :: others) := by
    have hold := h.aligned
    rw [hline] at hold
    obtain ⟨hfirst, hrest⟩ := List.pairwise_cons.1 hold
    refine List.pairwise_cons.2 ⟨fun k hk => ?_, List.pairwise_cons.2 ⟨fun k hk us vs hu => ?_, hrest⟩⟩
    · rcases List.mem_cons.1 hk with rfl | hk
      · exact fun us vs hu hv _ => hu.unique hv hheir
      · exact hfirst k hk
    · exact hfirst k hk us vs (hcarries hu)
  refine ⟨haligned.sublist hsub, fun k hk vs hc hw => ?_, fun hb k hk vs hc => ?_, fun k hk vs hc hw => ?_,
    fun k hk => h.written k (hcurrent k hk), fun k hk => h.fit k (hcurrent k hk), h.idle, h.heirs, h.distinct⟩
  · rcases hto hk with rfl | hk
    · exact h.shown f hmem vs (hcarries hc) (hf vs (hcarries hc))
    · exact h.shown k hk vs hc hw
  · rcases hto hk with rfl | hk
    · exact h.bare hb f hmem vs (hcarries hc)
    · exact h.bare hb k hk vs hc
  · have hopen : (e.fiber k).isWritten = false := hw
    rcases hto (List.mem_append_right _ hk) with rfl | hk
    · rw [hpw (by rw [show (e.fiber k).entry = _ from hc]; simp)] at hopen
      cases hopen
    · rcases mem_line.1 hk with hcur | hk
      · rw [h.written k hcur] at hopen
        cases hopen
      · exact h.ready k hk vs hc hw

/-- Nobody is about to fail who is idle. -/
theorem excuse (h : Unmixed x shows fits isBare c e) (hrest : e.current = none)
    (hidle : ∀ k, c = some k → (e.fiber k).next = none ∧ (e.fiber k).listeners = []) : Unmixed x shows fits isBare none e where
  aligned := h.aligned
  shown := h.shown
  bare := h.bare
  ready := h.ready
  written := h.written
  fit k hk := by
    rw [hrest] at hk
    cases hk
  idle k _ vs hv hw hfit := by
    by_cases hc : c = some k
    · exact hidle k hc
    · exact h.idle k hc vs hv hw hfit
  heirs := h.heirs
  distinct := h.distinct

/-- Any fiber may be about to fail. -/
theorem doubt (h : Unmixed x shows fits isBare none e) (c : Option Nat) : Unmixed x shows fits isBare c e where
  aligned := h.aligned
  shown := h.shown
  bare := h.bare
  ready := h.ready
  written := h.written
  fit k hk _ := h.fit k hk (by simp)
  idle k _ := h.idle k (by simp)
  heirs := h.heirs
  distinct := h.distinct

/-- The first of the line is over. -/
theorem finish (h : Unmixed x shows fits isBare c e) {d : Option Nat} {others : List Nat}
    (hcurrent : ∀ k, d = some k → e.current = some k) (hline : e.line = f :: others)
    (hf : ∀ vs, (e.fiber f).Carries x vs → (e.fiber f).isWritten = true)
    (hself : (d.toList ++ others).Sublist e.line) :
    Unmixed x shows fits isBare c { (({ e with queue := others } : Engine).finish f) with current := d } := by
  have halike := ({ e with queue := others } : Engine).alike_finish f
  rcases ({ e with queue := others } : Engine).queue_finish f with hq | ⟨p, hp, hq⟩
  · exact (h.regroup hcurrent hself).alike halike hq rfl
  · exact (h.resume hcurrent hline hp hf).alike halike hq rfl

/-- The fiber at work changes in what is its own business. -/
theorem alter (h : Unmixed x shows fits isBare c e) (hc : e.current = some f) {g : Fiber → Fiber}
    (hentry : ∀ y, (g y).entry = y.entry) (hwritten : ∀ y, (g y).isWritten = y.isWritten)
    (hparent : ∀ y, (g y).parent = y.parent) : Unmixed x shows fits isBare c (e.modifyFiber f g) := by
  have hfiber (k : Nat) := e.fiber_modifyFiber f k g
  have hentry (k : Nat) : ((e.modifyFiber f g).fiber k).entry = (e.fiber k).entry := by
    rw [hfiber]
    split
    · exact hentry _
    · rfl
  have hwritten (k : Nat) : ((e.modifyFiber f g).fiber k).isWritten = (e.fiber k).isWritten := by
    rw [hfiber]
    split
    · exact hwritten _
    · rfl
  have hparent (k : Nat) : ((e.modifyFiber f g).fiber k).parent = (e.fiber k).parent := by
    rw [hfiber]
    split
    · exact hparent _
    · rfl
  have hother {k : Nat} (hk : f ≠ k) : (e.modifyFiber f g).fiber k = e.fiber k := by
    rw [hfiber, if_neg fun h => hk h.1]
  have hready : ∀ k ∈ e.queue, ∀ vs, (e.fiber k).Carries x vs → (e.fiber k).isWritten = false →
      ((e.modifyFiber f g).fiber k).next.isSome = true := by
    intro k hk vs hv hw
    by_cases hfk : f = k
    · rw [h.written k (hfk ▸ hc)] at hw
      cases hw
    · rw [hother hfk]
      exact h.ready k hk vs hv hw
  have hidle : ∀ k, c ≠ some k → ∀ vs, (e.fiber k).Carries x vs → (e.fiber k).isWritten = true → ¬ fits vs →
      ((e.modifyFiber f g).fiber k).next = none ∧ ((e.modifyFiber f g).fiber k).listeners = [] := by
    intro k hk vs hv hw hfit
    by_cases hfk : f = k
    · exact absurd (h.fit k (hfk ▸ hc) hk vs hv) hfit
    · rw [hother hfk]
      exact h.idle k hk vs hv hw hfit
  obtain ⟨haligned, hshown, hbare, -, hwork, hfit, -, hheirs, hdistinct⟩ := h
  simp only [Aligned, Fiber.Carries] at haligned hshown hbare hready hfit hidle hdistinct
  constructor
  all_goals simp only [Aligned, Fiber.Carries, hentry, hwritten, hparent]
  all_goals assumption

/-- The head of the queue gets to work, and writes what it carries if it has not done so. It is about to fail if the node
cannot have that. -/
theorem write (h : Unmixed x shows fits isBare none e) {others : List Nat} (hc : e.current = none) (hq : e.queue = f :: others)
    (hf : f < e.fibers.size) (hnew : f ∉ others)
    (hwrite : ∀ vs, (e.fiber f).Carries x vs → (e.fiber f).isWritten = false → fits vs → shows' vs)
    (hkeep : (∀ vs, (e.fiber f).Carries x vs → (e.fiber f).isWritten = true) → ∀ vs, shows vs → shows' vs)
    (hfit : c ≠ some f → ∀ vs, (e.fiber f).Carries x vs → fits vs) :
    Unmixed x shows' fits isBare c
      (({ e with queue := others, current := some f } : Engine).modifyFiber f fun y => { y with isWritten := true }) := by
  have hline : e.line = f :: others := by rw [line_of_rest hc, hq]
  have hmem : f ∈ e.line := by
    rw [hline]
    exact List.mem_cons_self
  have hto {k : Nat} (hk : k ∈ f :: others) : k ∈ e.line := by rwa [hline]
  have hold := h.aligned
  rw [hline] at hold
  obtain ⟨hfirst, hrest⟩ := List.pairwise_cons.1 hold
  generalize he : ({ e with queue := others, current := some f } : Engine).modifyFiber f
    (fun y => { y with isWritten := true }) = e'
  have hfiber (k : Nat) : e'.fiber k = if f = k then { e.fiber k with isWritten := true } else e.fiber k := by
    rw [← he, fiber_modifyFiber]
    by_cases hfk : f = k
    · rw [if_pos ⟨hfk, hf⟩, if_pos hfk]
      rfl
    · rw [if_neg fun h => hfk h.1, if_neg hfk]
      rfl
  have hcurrent : e'.current = some f := by rw [← he]; rfl
  have hqueue : e'.queue = others := by rw [← he]; rfl
  have hline' : e'.line = f :: others := by rw [line_of_current hcurrent, hqueue]
  have hentry (k : Nat) : (e'.fiber k).entry = (e.fiber k).entry := by rw [hfiber]; split <;> rfl
  have hnext (k : Nat) : (e'.fiber k).next = (e.fiber k).next := by rw [hfiber]; split <;> rfl
  have hlisteners (k : Nat) : (e'.fiber k).listeners = (e.fiber k).listeners := by rw [hfiber]; split <;> rfl
  have hparent (k : Nat) : (e'.fiber k).parent = (e.fiber k).parent := by rw [hfiber]; split <;> rfl
  have hself : (e'.fiber f).isWritten = true := by rw [hfiber, if_pos rfl]
  have hother {k : Nat} (hk : f ≠ k) : (e'.fiber k).isWritten = (e.fiber k).isWritten := by rw [hfiber, if_neg hk]
  have hcarries {k : Nat} {vs : List (String × Value)} (hv : (e'.fiber k).Carries x vs) : (e.fiber k).Carries x vs :=
    (hentry k).symm.trans hv
  have hbehind {k : Nat} (hk : k ∈ others) : f ≠ k := fun h => hnew (h ▸ hk)
  -- What has been written behind the head is what the head carries, if that is anything for the node.
  have hshown : ∀ k ∈ f :: others, ∀ vs, (e.fiber k).Carries x vs → (e'.fiber k).isWritten = true → fits vs → shows' vs := by
    intro k hk vs hv hw hfits
    by_cases hfk : f = k
    · subst hfk
      by_cases hwf : (e.fiber f).isWritten = true
      · exact hkeep (fun _ _ => hwf) vs (h.shown f hmem vs hv hwf hfits)
      · exact hwrite vs hv (Bool.eq_false_iff.2 hwf) hfits
    · rw [hother hfk] at hw
      by_cases hkept : ∀ us, (e.fiber f).Carries x us → (e.fiber f).isWritten = true
      · exact hkeep hkept vs (h.shown k (hto hk) vs hv hw hfits)
      · obtain ⟨us, hus⟩ := Classical.not_forall.1 hkept
        obtain ⟨hu, hwf⟩ := Classical.not_imp.1 hus
        obtain rfl := hfirst k ((List.mem_cons.1 hk).resolve_left (Ne.symm hfk)) us vs hu hv hw
        exact hwrite us hu (Bool.eq_false_iff.2 hwf) hfits
  refine ⟨?_, ?_, ?_, ?_, ?_, ?_, ?_, ?_, ?_⟩
  · rw [hline']
    refine List.pairwise_cons.2 ⟨fun k hk us vs hu hv hw => ?_, hrest.imp_of_mem fun {a k} _ hk hak us vs hu hv hw => ?_⟩
    · exact hfirst k hk us vs (hcarries hu) (hcarries hv) (by rwa [← hother (hbehind hk)])
    · exact hak us vs (hcarries hu) (hcarries hv) (by rwa [← hother (hbehind hk)])
  · intro k hk vs hv hw hfits
    exact hshown k (hline' ▸ hk) vs (hcarries hv) hw hfits
  · intro hb k hk vs hv
    exact h.bare hb k (hto (hline' ▸ hk)) vs (hcarries hv)
  · intro k hk vs hv hw
    rw [hqueue] at hk
    rw [hother (hbehind hk)] at hw
    rw [hnext]
    exact h.ready k (by rw [hq]; exact List.mem_cons_of_mem f hk) vs (hcarries hv) hw
  · intro k hk
    rw [hcurrent] at hk
    cases hk
    exact hself
  · intro k hk hck vs hv
    rw [hcurrent] at hk
    cases hk
    exact hfit hck vs (hcarries hv)
  · intro k hk vs hv hw hfits
    by_cases hfk : f = k
    · subst hfk
      exact absurd (hfit hk vs (hcarries hv)) hfits
    · rw [hother hfk] at hw
      rw [hnext, hlisteners]
      exact h.idle k (by simp) vs (hcarries hv) hw hfits
  · intro k p hp
    rw [hparent] at hp
    obtain ⟨hheir, hpw⟩ := h.heirs k p hp
    rw [hentry, hentry]
    refine ⟨hheir, fun hne => ?_⟩
    by_cases hfp : f = p
    · rw [← hfp, hself]
    · rw [hother hfp]
      exact hpw hne
  · exact fun k vs hv => h.distinct k vs (hcarries hv)

section Growing

variable (hqueue : ∀ k ∈ e.queue, k < e.fibers.size) (hparents : ∀ k p, (e.fiber k).parent = some p → p < e.fibers.size)

include hqueue hparents

/-- The fiber at work commits. Its children carry what it carries, which is written. -/
theorem commit (h : Unmixed x shows fits isBare none e) (hc : e.current = some f) (hf : f < e.fibers.size) (node : NodeRef)
    (l : Option Listener) (wires : List Wire) : Unmixed x shows fits isBare none (e.commit f node l wires) := by
  have hfiber := fiber_commit hf node l wires
  have heq := commit_eq hf node l wires
  have hcurrent : (e.commit f node l wires).current = some f := by
    rw [heq]
    exact hc
  have hqueue' : (e.commit f node l wires).queue =
      List.range' e.fibers.size (branches wires).length ++ e.queue := by
    rw [heq]
    exact if_pos hc
  have hsize : (e.commit f node l wires).fibers.size = e.fibers.size + (branches wires).length := by
    rw [heq]
    simp
  generalize e.commit f node l wires = e' at hfiber hcurrent hqueue' hsize
  have hself := hfiber f
  rw [if_pos hf, if_pos rfl] at hself
  have hwf : (e'.fiber f).isWritten = true := by rw [hself, onto_isWritten, h.written f hc, Bool.true_or]
  have hentry {k : Nat} (hk : k < e.fibers.size) : (e'.fiber k).entry = (e.fiber k).entry := by
    rw [hfiber, if_pos hk]
    split
    · exact onto_entry ..
    · rfl
  have hparent {k : Nat} (hk : k < e.fibers.size) : (e'.fiber k).parent = (e.fiber k).parent := by
    rw [hfiber, if_pos hk]
    split
    · exact onto_parent ..
    · rfl
  have hother {k : Nat} (hk : k < e.fibers.size) (hfk : f ≠ k) : e'.fiber k = e.fiber k := by
    rw [hfiber, if_pos hk, if_neg hfk]
  have hwritten {k : Nat} (hk : k < e.fibers.size) : (e'.fiber k).isWritten = (e.fiber k).isWritten := by
    by_cases hfk : f = k
    · rw [← hfk, hwf, h.written f hc]
    · rw [hother hk hfk]
  have hkid {k : Nat} (hk : e.fibers.size ≤ k) (hk' : k < e'.fibers.size) :
      (e'.fiber k).parent = some f ∧ (e'.fiber k).entry = (e.fiber f).entry ∧ (e'.fiber k).isWritten = true := by
    have hlt : k - e.fibers.size < (offshoots f (e.fiber f) node wires).length := by
      rw [length_offshoots]
      omega
    rw [hfiber, if_neg (by omega), List.getElem?_eq_getElem hlt]
    obtain ⟨-, hheir, hw⟩ := heir_of_mem_offshoots (List.getElem_mem hlt)
    exact ⟨(fresh_of_mem_offshoots (List.getElem_mem hlt)).parent, hheir, hw.trans (h.written f hc)⟩
  have hplace {k : Nat} (hk : k ∈ e'.line) : k < e'.fibers.size ∧ (e.fibers.size ≤ k ∨ k ∈ e.line) := by
    rw [mem_line, hcurrent, hqueue', List.mem_append, List.mem_range'_1] at hk
    rw [mem_line, hsize]
    rcases hk with hk | hk | hk
    · cases hk
      exact ⟨by omega, .inr (.inl hc)⟩
    · exact ⟨by omega, .inl hk.1⟩
    · exact ⟨Nat.lt_of_lt_of_le (hqueue k hk) (Nat.le_add_right ..), .inr (.inr hk)⟩
  have hold {k : Nat} (hk : k ∈ e.line) : k < e.fibers.size := by
    rcases mem_line.1 hk with hk | hk
    · rw [hc] at hk
      cases hk
      exact hf
    · exact hqueue k hk
  have hmem : f ∈ e.line := mem_line.2 (.inl hc)
  -- A child of the fiber at work counts like that fiber itself.
  have hlike {k : Nat} (hk : k ∈ e'.line) : ∃ j ∈ e.line, (e'.fiber k).entry = (e.fiber j).entry ∧
      (e'.fiber k).isWritten = (e.fiber j).isWritten := by
    obtain ⟨hk', hk | hk⟩ := hplace hk
    · obtain ⟨-, hheir, hw⟩ := hkid hk hk'
      exact ⟨f, hmem, hheir, by rw [hw, h.written f hc]⟩
    · exact ⟨k, hk, hentry (hold hk), hwritten (hold hk)⟩
  refine ⟨?_, ?_, ?_, ?_, ?_, ?_, ?_, ?_, ?_⟩
  · have hbefore := h.aligned
    rw [Aligned, line_of_current hc] at hbefore
    obtain ⟨hfirst, hrest⟩ := List.pairwise_cons.1 hbefore
    have hnew {k : Nat} (hk : k ∈ List.range' e.fibers.size (branches wires).length) :
        (e'.fiber k).entry = (e.fiber f).entry := by
      have hk := List.mem_range'_1.1 hk
      exact (hkid hk.1 (by omega)).2.1
    have hthere {us vs : List (String × Value)} {k : Nat} (hk : k ∈ e.queue) (hu : (e.fiber f).Carries x us)
        (hv : (e'.fiber k).Carries x vs) (hw : (e'.fiber k).isWritten = true) : us = vs :=
      hfirst k hk us vs hu ((hentry (hqueue k hk)).symm.trans hv) (by rwa [← hwritten (hqueue k hk)])
    rw [Aligned, line_of_current hcurrent, hqueue']
    refine List.pairwise_cons.2 ⟨fun k hk us vs hu hv hw => ?_, List.pairwise_append.2 ⟨?_, ?_, ?_⟩⟩
    · have hu : (e.fiber f).Carries x us := (hentry hf).symm.trans hu
      rcases List.mem_append.1 hk with hk | hk
      · exact hu.unique hv (hnew hk).symm
      · exact hthere hk hu hv hw
    · refine List.Pairwise.imp_of_mem (R := fun _ _ => True) (fun {a b} ha hb _ us vs hu hv _ => ?_) (List.pairwise_of_forall ?_)
      · exact hu.unique hv ((hnew ha).trans (hnew hb).symm)
      · exact fun _ _ => trivial
    · refine hrest.imp_of_mem fun {a b} ha hb hab us vs hu hv hw => ?_
      exact hab us vs ((hentry (hqueue a ha)).symm.trans hu) ((hentry (hqueue b hb)).symm.trans hv)
        (by rwa [← hwritten (hqueue b hb)])
    · exact fun a ha b hb us vs hu hv hw => hthere hb ((hnew ha).symm.trans hu) hv hw
  · intro k hk vs hv hw
    obtain ⟨j, hj, hheir, hw'⟩ := hlike hk
    exact h.shown j hj vs (hheir.symm.trans hv) (hw' ▸ hw)
  · intro hb k hk vs hv
    obtain ⟨j, hj, hheir, -⟩ := hlike hk
    exact h.bare hb j hj vs (hheir.symm.trans hv)
  · intro k hk vs hv hw
    obtain ⟨hk', hnew | hk⟩ := hplace (mem_line.2 (.inr hk))
    · rw [(hkid hnew hk').2.2] at hw
      cases hw
    · have hlt := hold hk
      rw [hwritten hlt] at hw
      rcases mem_line.1 hk with hcur | hk
      · rw [h.written k hcur] at hw
        cases hw
      · have hfk : f ≠ k := by
          rintro rfl
          rw [h.written f hc] at hw
          cases hw
        rw [hother hlt hfk] at hv ⊢
        exact h.ready k hk vs hv hw
  · intro k hk
    rw [hcurrent] at hk
    cases hk
    exact hwf
  · intro k hk _ vs hv
    rw [hcurrent] at hk
    cases hk
    exact h.fit f hc (by simp) vs ((hentry hf).symm.trans hv)
  · intro k _ vs hv hw hfits
    have hrunning {us : List (String × Value)} (hu : (e.fiber f).Carries x us) : fits us := h.fit f hc (by simp) us hu
    by_cases hk : k < e.fibers.size
    · have hfk : f ≠ k := by
        rintro rfl
        exact hfits (hrunning ((hentry hf).symm.trans hv))
      rw [hother hk hfk] at hv hw ⊢
      exact h.idle k (by simp) vs hv hw hfits
    · by_cases hk' : k < e'.fibers.size
      · exact absurd (hrunning ((hkid (Nat.not_lt.1 hk) hk').2.1.symm.trans hv)) hfits
      · rw [fiber_out (Nat.not_lt.1 hk')] at hv
        cases hv
  · intro k p hp
    by_cases hk : k < e.fibers.size
    · rw [hparent hk] at hp
      have hlt := hparents k p hp
      rw [hentry hk, hentry hlt, hwritten hlt]
      exact h.heirs k p hp
    · by_cases hk' : k < e'.fibers.size
      · obtain ⟨hpf, hheir, -⟩ := hkid (Nat.not_lt.1 hk) hk'
        rw [hpf] at hp
        cases hp
        exact ⟨hheir.trans (hentry hf).symm, fun _ => hwf⟩
      · rw [fiber_out (Nat.not_lt.1 hk')] at hp
        cases hp
  · intro k vs hv
    by_cases hk : k < e.fibers.size
    · exact h.distinct k vs ((hentry hk).symm.trans hv)
    · by_cases hk' : k < e'.fibers.size
      · exact h.distinct f vs ((hkid (Nat.not_lt.1 hk) hk').2.1.symm.trans hv)
      · rw [fiber_out (Nat.not_lt.1 hk')] at hv
        cases hv

/-- A root comes in behind all others. Nobody listens to one that carries something for the node, and where nothing is
behind the node it does not get into the queue. -/
theorem enter (h : Unmixed x shows fits isBare c e) {root : Fiber} {kids : List Fiber} (he : Entered e e' root kids)
    (hcurrent : ∀ k, e.current = some k → k < e.fibers.size)
    (hroot : ∀ vs, root.Carries x vs → root.listeners = [] ∧ (vs.map (·.1)).Nodup ∧
      (isBare → kids = [] ∧ root.isComplete = true)) : Unmixed x shows fits isBare c e' := by
  have hidle : root.isComplete = true → root.next = none ∧ root.listeners = [] := by
    intro hcomplete
    simp only [Fiber.isComplete, he.isAborted, Bool.false_or, Bool.and_eq_true, Option.isNone_iff_eq_none,
      List.isEmpty_iff] at hcomplete
    exact ⟨hcomplete.1.1, hcomplete.2⟩
  -- Where a fiber of the engine comes from.
  have hcases (k : Nat) : k < e.fibers.size ∧ e'.fiber k = e.fiber k ∨ k = e.fibers.size ∧ e'.fiber k = root ∨
      e.fibers.size < k ∧ e'.fiber k ∈ kids ∨ e'.fiber k = default := by
    obtain hk | rfl | ⟨hk, hk'⟩ | hk : k < e.fibers.size ∨ k = e.fibers.size ∨
        (e.fibers.size < k ∧ k < e'.fibers.size) ∨ e'.fibers.size ≤ k := by omega
    · exact .inl ⟨hk, he.fiber_old hk⟩
    · exact .inr (.inl ⟨rfl, he.fiber_root⟩)
    · exact .inr (.inr (.inl ⟨hk, he.mem_kids_of_lt hk hk'⟩))
    · exact .inr (.inr (.inr (fiber_out hk)))
  have hplace {k : Nat} (hk : k ∈ e'.line) : k ∈ e.line ∧ k < e.fibers.size ∨ e.fibers.size ≤ k ∧ k ∈ e'.queue := by
    rw [mem_line, he.current] at hk
    rcases hk with hk | hk
    · exact .inl ⟨mem_line.2 (.inl hk), hcurrent k hk⟩
    · by_cases hlt : k < e.fibers.size
      · rw [he.queue, List.mem_append] at hk
        rcases hk with hk | hk
        · exact .inl ⟨mem_line.2 (.inr hk), hlt⟩
        · split at hk
          · split at hk
            · cases hk
            · rw [List.mem_singleton] at hk
              omega
          · rw [List.mem_range'_1] at hk
            omega
      · exact .inr ⟨Nat.not_lt.1 hlt, hk⟩
  have hnew {k : Nat} (hk : k ∈ e'.queue) (hle : e.fibers.size ≤ k) : (kids = [] → root.isComplete = false) ∧
      (kids ≠ [] → e.fibers.size < k) := by
    rw [he.queue, List.mem_append] at hk
    rcases hk with hk | hk
    · have hlt := hqueue k hk
      omega
    · split at hk
      · rename_i hkids
        refine ⟨fun _ => ?_, fun hne => absurd hkids hne⟩
        split at hk
        · cases hk
        · rename_i hcomplete
          exact Bool.eq_false_iff.2 hcomplete
      · rename_i hkids
        rw [List.mem_range'_1] at hk
        exact ⟨fun hnil => absurd hnil hkids, fun _ => by omega⟩
  -- Nobody who is new to the queue has written anything.
  have hunwritten {k : Nat} (hk : k ∈ e'.queue) (hle : e.fibers.size ≤ k) : (e'.fiber k).isWritten = false := by
    obtain ⟨hwhole, hsplit⟩ := hnew hk hle
    rcases hcases k with ⟨hlt, -⟩ | ⟨rfl, hr⟩ | ⟨-, hmem⟩ | hout
    · omega
    · rw [hr]
      by_cases hkids : kids = []
      · exact he.ready hkids (hwhole hkids)
      · exact absurd (hsplit hkids) (Nat.lt_irrefl _)
    · exact (he.heirs _ hmem).2.2
    · rw [hout]
      rfl
  have hroots {k : Nat} (hle : e.fibers.size ≤ k) {vs : List (String × Value)} (hv : (e'.fiber k).Carries x vs) :
      root.Carries x vs := by
    rcases hcases k with ⟨hlt, -⟩ | ⟨-, hr⟩ | ⟨-, hmem⟩ | hout
    · omega
    · rwa [hr] at hv
    · exact (he.heirs _ hmem).2.1.symm.trans hv
    · rw [hout] at hv
      cases hv
  refine ⟨?_, ?_, ?_, ?_, ?_, ?_, ?_, ?_, ?_⟩
  · have hline : ∃ more, e'.line = e.line ++ more ∧ ∀ k ∈ more, k ∈ e'.queue ∧ e.fibers.size ≤ k := by
      refine ⟨_, by rw [line, line, he.current, he.queue, List.append_assoc], fun k hk => ⟨?_, ?_⟩⟩
      · rw [he.queue]
        exact List.mem_append_right _ hk
      · split at hk
        · split at hk
          · cases hk
          · rw [List.mem_singleton] at hk
            omega
        · rw [List.mem_range'_1] at hk
          omega
    obtain ⟨more, hline, hmore⟩ := hline
    have hold {k : Nat} (hk : k ∈ e.line) : k < e.fibers.size := by
      rcases mem_line.1 hk with hk | hk
      · exact hcurrent k hk
      · exact hqueue k hk
    rw [Aligned, hline]
    refine List.pairwise_append.2 ⟨h.aligned.imp_of_mem fun {a b} ha hb hab => ?_, ?_, ?_⟩
    · rw [he.fiber_old (hold ha), he.fiber_old (hold hb)]
      exact hab
    · refine List.Pairwise.imp_of_mem (R := fun _ _ => True) (fun {a b} _ hb _ us vs _ _ hw => ?_) (List.pairwise_of_forall ?_)
      · rw [hunwritten (hmore b hb).1 (hmore b hb).2] at hw
        cases hw
      · exact fun _ _ => trivial
    · intro a _ b hb us vs _ _ hw
      rw [hunwritten (hmore b hb).1 (hmore b hb).2] at hw
      cases hw
  · intro k hk vs hv hw
    rcases hplace hk with ⟨hk, hlt⟩ | ⟨hle, hk⟩
    · rw [he.fiber_old hlt] at hv hw
      exact h.shown k hk vs hv hw
    · rw [hunwritten hk hle] at hw
      cases hw
  · intro hb k hk vs hv
    rcases hplace hk with ⟨hk, hlt⟩ | ⟨hle, hk⟩
    · rw [he.fiber_old hlt] at hv
      exact h.bare hb k hk vs hv
    · obtain ⟨-, -, hgone⟩ := hroot vs (hroots hle hv)
      obtain ⟨hkids, hcomplete⟩ := hgone hb
      rw [(hnew hk hle).1 hkids] at hcomplete
      cases hcomplete
  · intro k hk vs hv hw
    rcases hcases k with ⟨hlt, hr⟩ | ⟨rfl, hr⟩ | ⟨-, hmem⟩ | hout
    · rw [hr] at hv hw ⊢
      rcases hplace (mem_line.2 (.inr hk)) with ⟨hk, -⟩ | ⟨hle, -⟩
      · rcases mem_line.1 hk with hcur | hk
        · rw [h.written k hcur] at hw
          cases hw
        · exact h.ready k hk vs hv hw
      · omega
    · obtain ⟨hwhole, hsplit⟩ := hnew hk (Nat.le_refl _)
      rw [hr] at hv ⊢
      by_cases hkids : kids = []
      · have hopen := hwhole hkids
        have hlisteners := (hroot vs hv).1
        simp only [Fiber.isComplete, he.isAborted, he.pending, hkids, hlisteners, List.length_nil, beq_self_eq_true,
          List.isEmpty_nil, Bool.false_or, Bool.and_true] at hopen
        rwa [← Option.isNone_eq_false_iff]
      · exact absurd (hsplit hkids) (Nat.lt_irrefl _)
    · exact (he.heirs _ hmem).1
    · rw [hout] at hv
      cases hv
  · intro k hk
    rw [he.current] at hk
    rw [he.fiber_old (hcurrent k hk)]
    exact h.written k hk
  · intro k hk hck vs hv
    rw [he.current] at hk
    rw [he.fiber_old (hcurrent k hk)] at hv
    exact h.fit k hk hck vs hv
  · intro k hck vs hv hw hfits
    rcases hcases k with ⟨hlt, hr⟩ | ⟨rfl, hr⟩ | ⟨-, hmem⟩ | hout
    · rw [hr] at hv hw ⊢
      exact h.idle k hck vs hv hw hfits
    · rw [hr] at hv hw ⊢
      by_cases hkids : kids = []
      · apply hidle
        cases hopen : root.isComplete with
        | true => rfl
        | false =>
          rw [he.ready hkids hopen] at hw
          cases hw
      · exact ⟨(he.left hkids).1, (hroot vs hv).1⟩
    · rw [(he.heirs _ hmem).2.2] at hw
      cases hw
    · rw [hout] at hv
      cases hv
  · intro k p hp
    rcases hcases k with ⟨hlt, hr⟩ | ⟨rfl, hr⟩ | ⟨hlt, hmem⟩ | hout
    · rw [hr] at hp ⊢
      rw [he.fiber_old (hparents k p hp)]
      exact h.heirs k p hp
    · rw [hr, he.parent] at hp
      cases hp
    · rw [(he.fresh _ hmem).parent] at hp
      cases hp
      rw [he.fiber_root]
      exact ⟨(he.heirs _ hmem).2.1, fun _ => (he.left (List.ne_nil_of_mem hmem)).2⟩
    · rw [hout] at hp
      cases hp
  · intro k vs hv
    rcases hcases k with ⟨-, hr⟩ | ⟨rfl, -⟩ | ⟨hlt, -⟩ | hout
    · rw [hr] at hv
      exact h.distinct k vs hv
    · exact (hroot vs (hroots (Nat.le_refl _) hv)).2.1
    · exact (hroot vs (hroots (Nat.le_of_lt hlt) hv)).2.1
    · rw [hout] at hv
      cases hv

end Growing

end Unmixed

end Engine

end FlowGraph
