import StoreBuffer.Proofs.Machine.Faults
import StoreBuffer.Proofs.Machine.Issues

/-! # Every run of the reference machine is found

A plain program whose threads stay after they have stored where others store as well, and whose
branches and numbers can be counted: whatever loads the reference machine lets it do with queues of
limited length, the machine does under some script. The machine follows the reference machine and
lags behind it, issue by issue. A program whose threads move on may lose an outcome, as the one at the
end does. -/

namespace StoreBuffer

namespace Tso

theorem step_store {least : Order} {i : Issue} {l : Location} {v : UInt64} {r : Order}
    (hop : i.op = .store l v r) (hplain : i.plain least = true) {s s' : Tso}
    (hs : Drains (s.enqueue i.thread (l.holding v)) s') : Step least i s .done s' := by
  have heq : s.store i.thread i.flags.bypassed (r ||| least) (l.holding v) =
      s.enqueue i.thread (l.holding v) := by
    rw [store, Issue.not_bypassed_of_plain hplain, Issue.not_seqCst_of_plain hplain hop]
    rfl
  refine ⟨s, _, .refl, ?_, hs⟩
  rw [hop, ← heq]
  exact .store

theorem step_load {least : Order} {i : Issue} {l : Location} {v : UInt64} {r : Order}
    (hop : i.op = .load l r) (hplain : i.plain least = true) {s s' : Tso} (hs : Drains s s')
    (hv : s'.load i.thread false l = v) : Step least i s (.value v) s' := by
  refine ⟨s', s', hs, ?_, .refl⟩
  rw [hop, Issue.not_bypassed_of_plain hplain, ← hv]
  exact .load

end Tso

namespace Machine

variable {c : Config} {is past : List Issue} {d : Debt} {m : Machine Scripted} {s : Tso}

theorem lags_create (c : Config) {h : Scripted} (hfit : h.Fits)
    (hin : ∀ i ∈ is, ∀ l ∈ i.op.locations, h.Covers l) :
    Lags c is [] (fun _ => c.capacity) [] (create c h) (Tso.start h.image) := by
  refine ⟨sound_create c hfit, rfl, hin, List.nil_sublist _, tso_create c h ▸ .refl _,
    fun t => List.nil_sublist _, fun t => ⟨List.Pairwise.nil, Nat.zero_le _, nofun⟩⟩

/-- Some answers make the machine follow a run of the reference machine to its end. -/
theorem Lags.exists_answers (h : Lags c is past (fun _ => c.capacity) d m s)
    (hplain : Program.Plain c.minOrder is) (hstays : Program.Stays is)
    (hbounded : Program.Bounded c is) {steps : List (Issue × Answer × Tso)}
    (hrun : Tso.Run c.minOrder s steps) (hnext : (past ++ steps.map (·.1)).Sublist is)
    (hqueue : ∀ e ∈ steps, ∀ t, (e.2.2.queue t).length ≤ c.capacity) :
    ∃ answers, (m.answering answers).outcomes (steps.map (·.1)) =
      steps.map fun e => .ok e.2.1 := by
  induction hrun generalizing past d m with
  | nil s => exact ⟨[], rfl⟩
  | @cons s s' i a rest hstep hrest ih =>
    rw [List.map_cons, List.append_cons] at hnext
    obtain ⟨answers, m', hm', d', hlags⟩ := h.gives_issue hplain hstays hbounded
      ((List.sublist_append_left ..).trans hnext) hstep (hqueue _ (List.mem_cons_self ..))
    obtain ⟨more, hmore⟩ := ih hlags hnext fun e he => hqueue e (List.mem_cons_of_mem _ he)
    refine ⟨answers ++ more, ?_⟩
    have hfirst : (m.answering (answers ++ more)).issue i = (.ok a, m'.answering more) := hm' more
    rw [List.map_cons, List.map_cons, ← hmore]
    show ((m.answering (answers ++ more)).issue i).1 ::
      (((m.answering (answers ++ more)).issue i).2.history (rest.map (·.1))).map (·.2.1) = _
    rw [hfirst]
    rfl

/-- A program of buffered stores and of loads by threads that do not store. If a thread that has
stored where another one stores as well stays there, then every vector of answers that the reference
machine can give, with queues that hold no more than the capacity after every operation, is given
under some script. Branches and numbers have to be countable. -/
theorem exists_script (c : Config) {h : Scripted} (hfit : h.Fits) {is : List Issue}
    (hin : ∀ i ∈ is, ∀ l ∈ i.op.locations, h.Covers l) (hplain : Program.Plain c.minOrder is)
    (hstays : Program.Stays is) (hbounded : Program.Bounded c is)
    {steps : List (Issue × Answer × Tso)} (hsteps : steps.map (·.1) = is)
    (hrun : Tso.Run c.minOrder (Tso.start h.image) steps)
    (hqueue : ∀ e ∈ steps, ∀ t, (e.2.2.queue t).length ≤ c.capacity) :
    ∃ script, (create c (h.withScript script)).outcomes is = steps.map fun e => .ok e.2.1 := by
  have hlags : Lags c is [] (fun _ => c.capacity) [] (create c (h.withScript []))
      (Tso.start h.image) := lags_create c hfit hin
  obtain ⟨answers, hanswers⟩ := hlags.exists_answers hplain hstays hbounded hrun
    (hsteps ▸ .refl _) hqueue
  rw [hsteps] at hanswers
  exact ⟨answers, hanswers⟩

/-- The first thread's eviction, and both threads' stores to one location in either order. -/
theorem exists_script_twoWriters :
    let x : Location := ⟨⟨0x10000000⟩, 32⟩
    let y : Location := ⟨⟨0x10000008⟩, 32⟩
    let is : List Issue :=
      [{ thread := ⟨1⟩, op := .store x 5 .monotonic }, { thread := ⟨1⟩, op := .store y 1 .release },
        { thread := ⟨2⟩, op := .store y 2 .monotonic }, { thread := ⟨1⟩, op := .store y 3 .monotonic },
        { thread := ⟨3⟩, op := .load y .acquire }, { thread := ⟨3⟩, op := .load x .monotonic },
        { thread := ⟨3⟩, op := .load y .monotonic }]
    let h := Scripted.create 24
    ∃ script, (create {} (h.withScript script)).outcomes is = [.ok .done, .ok .done, .ok .done,
      .ok .done, .ok (.value 2), .ok (.value 5), .ok (.value 1)] := by
  intro x y is h
  let s₁ := (Tso.start h.image).enqueue ⟨1⟩ (x.holding 5)
  let s₂ := s₁.enqueue ⟨1⟩ (y.holding 1)
  let s₃ := s₂.enqueue ⟨2⟩ (y.holding 2)
  let s₄ := (s₃.enqueue ⟨1⟩ (y.holding 3)).release ⟨1⟩ 1
  let s₅ := s₄.release ⟨2⟩ 1
  let s₆ := s₅.release ⟨1⟩ 1
  let steps : List (Issue × Answer × Tso) :=
    [(is[0], .done, s₁), (is[1], .done, s₂), (is[2], .done, s₃), (is[3], .done, s₄),
      (is[4], .value 2, s₅), (is[5], .value 5, s₅), (is[6], .value 1, s₆)]
  have hrun : Tso.Run .notAtomic (Tso.start h.image) steps := by
    refine .cons (Tso.step_store rfl (by decide) .refl) ?_
    refine .cons (Tso.step_store rfl (by decide) .refl) ?_
    refine .cons (Tso.step_store rfl (by decide) .refl) ?_
    refine .cons (Tso.step_store rfl (by decide) (Tso.drains_release ..)) ?_
    refine .cons (Tso.step_load rfl (by decide) (Tso.drains_release ..) (by decide +kernel)) ?_
    refine .cons (Tso.step_load rfl (by decide) .refl (by decide +kernel)) ?_
    exact .cons (Tso.step_load rfl (by decide) (Tso.drains_release ..) (by decide +kernel)) (.nil _)
  have hqueue : ∀ e ∈ steps, ∀ t, (e.2.2.queue t).length ≤ 2 := by
    intro e he t
    simp only [steps, List.mem_cons, List.not_mem_nil, or_false] at he
    by_cases h₁ : t = ⟨1⟩
    · subst h₁
      rcases he with rfl | rfl | rfl | rfl | rfl | rfl | rfl <;> decide +kernel
    by_cases h₂ : t = ⟨2⟩
    · subst h₂
      rcases he with rfl | rfl | rfl | rfl | rfl | rfl | rfl <;> decide +kernel
    rcases he with rfl | rfl | rfl | rfl | rfl | rfl | rfl <;>
      simp [s₁, s₂, s₃, s₄, s₅, s₆, Tso.start, Tso.enqueue, Tso.release, h₁, h₂]
  exact exists_script {} (by unfold Scripted.Fits; decide) (by decide)
    ⟨by decide, by decide, by decide, by decide⟩ (by decide) ⟨by decide, by decide⟩ rfl hrun hqueue

/-! ## An outcome that is lost -/

theorem outcomes_cons {i : Issue} {rest : List Issue} {o : Outcome} {os : List Outcome} :
    m.outcomes (i :: rest) = o :: os ↔ (m.issue i).1 = o ∧ (m.issue i).2.outcomes rest = os :=
  List.cons.injEq .. |>.to_iff

/-- The machine holds what the reference machine holds, with so many stores of every thread, and
will answer `os` to the issues `is`. -/
structure Faces (c : Config) (is : List Issue) (s : Tso) (stores : ThreadId → Nat)
    (os : List Outcome) (m : Machine Scripted) : Prop where
  sound : m.Sound
  config : m.config = c
  plain : ∀ i ∈ is, i.plain c.minOrder = true
  covers : ∀ i ∈ is, ∀ l ∈ i.op.locations, m.host.Covers l
  tso : m.tso = s
  storesOf : ∀ t, m.storesOf t = stores t
  outcomes : m.outcomes is = os

theorem Faces.next {i : Issue} {stores : ThreadId → Nat} {os : List Outcome}
    (h : Faces c (i :: is) s stores os m) : (m.issue i).2.Sound ∧ (m.issue i).2.config = m.config ∧
      ∀ j ∈ is, ∀ l ∈ j.op.locations, (m.issue i).2.host.Covers l := by
  obtain ⟨hsound, hconfig, hcov⟩ :=
    issue_next h.sound fun l hl _ => h.covers i (List.mem_cons_self ..) l hl
  exact ⟨hsound, hconfig, fun j hj l hl =>
    (hcov l).mpr (h.covers j (List.mem_cons_of_mem _ hj) l hl)⟩

theorem Faces.store {i : Issue} {stores : ThreadId → Nat} {os : List Outcome}
    (h : Faces c (i :: is) s stores (.ok .done :: os) m) {l : Location} {v : UInt64} {r : Order}
    (hop : i.op = .store l v r) (hroom : stores i.thread < c.capacity) :
    Faces c is (s.enqueue i.thread (l.holding v))
      (fun t => stores t + if t = i.thread then 1 else 0) os (m.issue i).2 := by
  obtain rfl := h.config
  obtain ⟨hout, hrest⟩ := outcomes_cons.mp h.outcomes
  rw [← h.storesOf] at hroom
  obtain ⟨htso, hstores⟩ :=
    issue_store_of_room h.sound hop (h.plain i (List.mem_cons_self ..)) hroom hout
  obtain ⟨hsound, hconfig, hcovers⟩ := h.next
  have hplain := fun j hj => h.plain j (List.mem_cons_of_mem i hj)
  refine ⟨hsound, hconfig, hplain, hcovers, h.tso ▸ htso, fun t => ?_, hrest⟩
  rw [hstores, h.storesOf]

/-- If of all pending writes only the last one of a thread shares bytes with a location, a load of it
brings all writes of the thread to memory, or none of anybody. -/
theorem Faces.load {i : Issue} {stores : ThreadId → Nat} {v : UInt64} {os : List Outcome}
    (h : Faces c (i :: is) s stores (.ok (.value v) :: os) m) {l : Location} {r : Order}
    (hop : i.op = .load l r) {t : ThreadId}
    (hothers : ∀ u, u ≠ t → ∀ w ∈ s.queue u, w.region.overlaps l.region = false)
    (hfront : ∀ w ∈ (s.queue t).dropLast, w.region.overlaps l.region = false) :
    ∃ s' stores' m', (s' = s ∨ s' = s.settle t) ∧ v = s'.load i.thread false l ∧
      Faces c is s' stores' os m' := by
  obtain rfl := h.config
  obtain ⟨hout, hrest⟩ := outcomes_cons.mp h.outcomes
  have hplain := fun j hj => h.plain j (List.mem_cons_of_mem i hj)
  have hcovers := h.covers i (List.mem_cons_self ..) l (by rw [hop]; exact List.mem_singleton_self l)
  obtain ⟨ks, htso, hnodup, hks, hvalue⟩ := issue_load h.sound hop
    (h.plain i (List.mem_cons_self ..)) hcovers hout
  rw [h.tso] at htso hks hvalue
  obtain ⟨hsound, hconfig, hcovers⟩ := h.next
  have hone : s.releases ks = s ∨ s.releases ks = s.release t (s.queue t).length := by
    refine Tso.releases_of_one hnodup fun k hk => ?_
    obtain ⟨-, hzero | ⟨w, hw, hover⟩⟩ := hks k hk
    · exact .inl hzero
    · by_cases hkt : k.1 = t
      · rw [hkt] at hw
        have hlast : ¬ k.2 - 1 < (s.queue t).length - 1 := by
          intro hlt
          have hmem : w ∈ (s.queue t).dropLast := by
            refine List.mem_of_getElem? (i := k.2 - 1) ?_
            rw [List.getElem?_dropLast, if_pos hlt, hw]
          rw [hfront w hmem] at hover
          contradiction
        have hlt := (List.getElem?_eq_some_iff.mp hw).1
        by_cases hzero : k.2 = 0
        · exact .inl hzero
        · exact .inr (Prod.ext hkt (by omega))
      · rw [hothers k.1 hkt w (List.mem_of_getElem? hw)] at hover
        contradiction
  rw [← Tso.settle_eq_release] at hone
  exact ⟨_, _, _, hone, hvalue, hsound, hconfig, hplain, hcovers, htso, fun _ => rfl, hrest⟩

namespace Crossing

def x : Location := ⟨⟨0x10000000⟩, 32⟩

def y : Location := ⟨⟨0x10000008⟩, 32⟩

def z : Location := ⟨⟨0x10000010⟩, 32⟩

/-- Two threads store to one location and then each to another; the reader looks at the others
first. -/
def issues : List Issue :=
  [{ thread := ⟨1⟩, op := .store y 1 .monotonic }, { thread := ⟨1⟩, op := .store x 1 .monotonic },
    { thread := ⟨2⟩, op := .store y 2 .monotonic }, { thread := ⟨2⟩, op := .store z 1 .monotonic },
    { thread := ⟨3⟩, op := .load z .monotonic }, { thread := ⟨3⟩, op := .load x .monotonic },
    { thread := ⟨3⟩, op := .load y .monotonic }]

def answers : List Answer := [.done, .done, .done, .done, .value 1, .value 1, .value 2]

def host : Scripted := Scripted.create 24

/-- The second thread's store to the common location comes between the first thread's stores. -/
theorem exists_run : ∃ steps, steps.map (·.1) = issues ∧ steps.map (·.2.1) = answers ∧
    Tso.Run .notAtomic (Tso.start host.image) steps ∧
      ∀ e ∈ steps, ∀ t, (e.2.2.queue t).length ≤ 2 := by
  let s₁ := (Tso.start host.image).enqueue ⟨1⟩ (y.holding 1)
  let s₂ := s₁.enqueue ⟨1⟩ (x.holding 1)
  let s₃ := s₂.enqueue ⟨2⟩ (y.holding 2)
  let s₄ := s₃.enqueue ⟨2⟩ (z.holding 1)
  let s₅ := (s₄.release ⟨1⟩ 1).release ⟨2⟩ 2
  let s₆ := s₅.release ⟨1⟩ 1
  refine ⟨[(issues[0], .done, s₁), (issues[1], .done, s₂), (issues[2], .done, s₃),
    (issues[3], .done, s₄), (issues[4], .value 1, s₅), (issues[5], .value 1, s₆),
    (issues[6], .value 2, s₆)], rfl, rfl, ?_, ?_⟩
  · refine .cons (Tso.step_store rfl (by decide) .refl) ?_
    refine .cons (Tso.step_store rfl (by decide) .refl) ?_
    refine .cons (Tso.step_store rfl (by decide) .refl) ?_
    refine .cons (Tso.step_store rfl (by decide) .refl) ?_
    refine .cons (Tso.step_load rfl (by decide) ((Tso.drains_release ..).trans
      (Tso.drains_release ..)) (by decide +kernel)) ?_
    refine .cons (Tso.step_load rfl (by decide) (Tso.drains_release ..) (by decide +kernel)) ?_
    exact .cons (Tso.step_load rfl (by decide) .refl (by decide +kernel)) (.nil _)
  · intro e he t
    simp only [List.mem_cons, List.not_mem_nil, or_false] at he
    by_cases h₁ : t = ⟨1⟩
    · subst h₁
      rcases he with rfl | rfl | rfl | rfl | rfl | rfl | rfl <;> decide +kernel
    by_cases h₂ : t = ⟨2⟩
    · subst h₂
      rcases he with rfl | rfl | rfl | rfl | rfl | rfl | rfl <;> decide +kernel
    rcases he with rfl | rfl | rfl | rfl | rfl | rfl | rfl <;>
      simp [s₁, s₂, s₃, s₄, s₅, s₆, Tso.start, Tso.enqueue, Tso.release, h₁, h₂]

/-- A load that makes one of the later stores visible takes the one before it along. So the common
location has been written by both threads, the first one last, when it is looked at. -/
theorem outcomes_ne (script : List Nat) :
    (create {} (host.withScript script)).outcomes issues ≠ answers.map .ok := by
  intro hout
  have hin : ∀ i ∈ issues, ∀ l ∈ i.op.locations, host.Covers l := by decide
  have hfit : host.Fits := by unfold Scripted.Fits; decide
  have h₀ : Faces {} issues (Tso.start host.image) (fun _ => 0) (answers.map .ok)
      (create {} (host.withScript script)) :=
    ⟨sound_create _ hfit, rfl, by decide, hin, rfl, fun _ => rfl, hout⟩
  have h₁ := h₀.store rfl (by decide)
  have h₂ := h₁.store rfl (by decide)
  have h₃ := h₂.store rfl (by decide)
  have h₄ := h₃.store rfl (by decide)
  -- only the second thread has a store to `z`
  obtain ⟨s₅, _, m₅, rfl | rfl, hz, h₅⟩ := h₄.load (t := ⟨2⟩) rfl (fun u hu => by
    by_cases h₁ : u = ⟨1⟩
    · subst h₁
      decide +kernel
    · simp [Tso.enqueue, Tso.start, h₁, hu]) (by decide +kernel)
  · exact absurd hz (by decide +kernel)
  -- only the first thread has anything left
  obtain ⟨s₆, _, m₆, rfl | rfl, hx, h₆⟩ := h₅.load (t := ⟨1⟩) rfl (fun u hu => by
    by_cases h₂ : u = ⟨2⟩
    · subst h₂
      decide +kernel
    · simp [Tso.settle, Tso.enqueue, Tso.start, h₂, hu]) (by decide +kernel)
  · exact absurd hx (by decide +kernel)
  obtain ⟨s₇, _, m₇, rfl | rfl, hy, -⟩ := h₆.load (t := ⟨1⟩) rfl (fun u hu => by
    by_cases h₂ : u = ⟨2⟩
    · subst h₂
      decide +kernel
    · simp [Tso.settle, Tso.enqueue, Tso.start, h₂, hu]) (by decide +kernel)
  · exact absurd hy (by decide +kernel)
  · exact absurd hy (by decide +kernel)

end Crossing

/-- Without staying an outcome is lost, though the program is plain and all can be counted. -/
theorem outcome_lost_crossing :
    Program.Plain Order.notAtomic Crossing.issues ∧ Program.Bounded {} Crossing.issues ∧
    (∀ i ∈ Crossing.issues, ∀ l ∈ i.op.locations, Crossing.host.Covers l) ∧
    (∃ steps, steps.map (·.1) = Crossing.issues ∧ steps.map (·.2.1) = Crossing.answers ∧
      Tso.Run .notAtomic (Tso.start Crossing.host.image) steps ∧
        ∀ e ∈ steps, ∀ t, (e.2.2.queue t).length ≤ ({} : Config).capacity) ∧
    ∀ script, (create {} (Crossing.host.withScript script)).outcomes Crossing.issues ≠
      Crossing.answers.map .ok :=
  ⟨⟨by decide, by decide, by decide, by decide⟩, ⟨by decide, by decide⟩, by decide,
    Crossing.exists_run, Crossing.outcomes_ne⟩

end Machine

end StoreBuffer
