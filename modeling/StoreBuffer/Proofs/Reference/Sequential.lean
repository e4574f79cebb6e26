import StoreBuffer.Proofs.Machine.Soundness

/-! # Sequential consistency of fenced programs

A program is fenced if every load that follows a deferred store of its thread has an operation of
that thread in between which empties the queue. What a fenced program does is what flat memory
allows in some other order: each operation takes its place when the reference machine brings it to
memory, and `Ordered` keeps the operations placed so far apart from those that are late. -/

namespace StoreBuffer

namespace Op

/-- Stores, loads and fences. -/
def isPlain : Op → Bool
  | .store .. | .load .. | .fence _ => true
  | _ => false

def isLoad : Op → Bool
  | .load .. => true
  | _ => false

/-- A store that the queue of its thread may hold back. -/
def isDeferred (least : Order) : Op → Bool
  | .store _ _ r => !(r ||| least).isSeqCst
  | _ => false

/-- A store or fence that empties the queue of its thread. -/
def isStrong (least : Order) : Op → Bool
  | .store _ _ r | .fence r => (r ||| least).isSeqCst
  | _ => false

def write? : Op → Option Write
  | .store l v _ => some (l.holding v)
  | _ => none

end Op

/-- Between a deferred store and a later load of its thread stands a strong operation of that
thread. -/
def Fenced (least : Order) (is : List Issue) : Prop :=
  ∀ i j : Fin is.length, i < j → is[i].thread = is[j].thread →
    is[i].op.isDeferred least = true → is[j].op.isLoad = true →
      ∃ k ∈ (is.take j).drop (i + 1), k.thread = is[j].thread ∧ k.op.isStrong least = true

instance (least : Order) (is : List Issue) : Decidable (Fenced least is) := by
  unfold Fenced; infer_instance

theorem Fenced.exists_strong {least : Order} {pre mid post : List Issue} {i j : Issue}
    (h : Fenced least (pre ++ i :: mid ++ j :: post)) (hthread : i.thread = j.thread)
    (hi : i.op.isDeferred least = true) (hj : j.op.isLoad = true) :
    ∃ k ∈ mid, k.thread = j.thread ∧ k.op.isStrong least = true := by
  have hlen : pre.length < (pre ++ i :: mid ++ j :: post).length := by
    simp
  have hlen' : (pre ++ i :: mid).length < (pre ++ i :: mid ++ j :: post).length := by
    simp
  have hfirst : (pre ++ i :: mid ++ j :: post)[pre.length] = i := by simp
  have hsecond : (pre ++ i :: mid ++ j :: post)[(pre ++ i :: mid).length] = j := by
    rw [List.getElem_append_right (Nat.le_refl _)]
    simp
  have hbetween : ((pre ++ i :: mid ++ j :: post).take (pre ++ i :: mid).length).drop
      (pre.length + 1) = mid := by
    rw [List.take_left, ← List.drop_drop, List.drop_left]
    rfl
  have hstrong := h ⟨_, hlen⟩ ⟨_, hlen'⟩
    (by simp only [Fin.mk_lt_mk, List.length_append, List.length_cons]; omega)
  simp only [Fin.getElem_fin, hfirst, hsecond, hbetween] at hstrong
  exact hstrong hthread hi hj

namespace Image

/-- What an operation does to flat memory. -/
inductive Effect (i : Image) : Op → Answer → Image → Prop
  | store {l v r} : Effect i (.store l v r) .done (i.write (l.holding v))
  | load {l r} : Effect i (.load l r) (.value (i.read l)) i
  | fence {r} : Effect i (.fence r) .done i

/-- Operations one after the other on flat memory. -/
inductive Runs : Image → List (Issue × Outcome) → Image → Prop
  | nil (i : Image) : Runs i [] i
  | cons {i i' i'' : Image} {e : Issue} {a : Answer} {rest : List (Issue × Outcome)}
      (hfirst : Effect i e.op a i') (hrest : Runs i' rest i'') : Runs i ((e, .ok a) :: rest) i''

theorem Runs.append {i i' i'' : Image} {es es' : List (Issue × Outcome)} (h : i.Runs es i')
    (h' : i'.Runs es' i'') : i.Runs (es ++ es') i'' := by
  induction h with
  | nil => exact h'
  | cons hfirst _ ih => exact .cons hfirst (ih h')

end Image

namespace Tso

/-- An operation that may take its place later: a store or fence that leaves the queue alone. -/
structure Waits (least : Order) (e : Issue × Outcome) : Prop where
  answer : e.2 = .ok .done
  plain : e.1.op.isPlain = true
  noLoad : e.1.op.isLoad = false
  weak : e.1.op.isStrong least = false

/-- The writes that operations are going to bring to memory. -/
abbrev writesOf (es : List (Issue × Outcome)) : List Write := es.filterMap (·.1.op.write?)

/-- The operations `placed` are in an order of flat memory; those issued beyond them are late, each
thread's behind what it has placed. -/
structure Ordered (least : Order) (origin : Image) (issued placed : List (Issue × Outcome))
    (late : ThreadId → List (Issue × Outcome)) (s : Tso) : Prop where
  split : ∀ t, issued.filter (·.1.thread = t) = placed.filter (·.1.thread = t) ++ late t
  flat : origin.Runs placed s.memory
  queue : ∀ t, s.queue t = writesOf (late t)
  waits : ∀ t, ∀ e ∈ late t, Waits least e

variable {least : Order} {origin : Image} {issued placed : List (Issue × Outcome)}
  {late : ThreadId → List (Issue × Outcome)} {s s' : Tso} {t : ThreadId}

theorem runs_of_waits {es : List (Issue × Outcome)} (h : ∀ e ∈ es, Waits least e) (i : Image) :
    i.Runs es (i.overlay (writesOf es)) := by
  induction es generalizing i with
  | nil => exact .nil i
  | cons e rest ih =>
    obtain ⟨⟨t, flags, objects, op⟩, o⟩ := e
    obtain ⟨hanswer, hplain, hload, -⟩ := h _ (List.mem_cons_self ..)
    have hrest := ih fun e he => h e (List.mem_cons_of_mem _ he)
    cases hanswer
    cases op with
    | store l v r => exact .cons .store (hrest _)
    | fence r => exact .cons .fence (hrest _)
    | load l r => contradiction
    | _ => contradiction

theorem Ordered.thread_of_late (h : Ordered least origin issued placed late s)
    {e : Issue × Outcome} (he : e ∈ late t) : e.1.thread = t := by
  have hmem : e ∈ issued.filter (·.1.thread = t) := by
    rw [h.split t]
    exact List.mem_append_right _ he
  simpa using (List.mem_filter.mp hmem).2

/-- Late operations of a thread take their places, the earliest first. -/
theorem Ordered.advance (h : Ordered least origin issued placed late s)
    {es rest : List (Issue × Outcome)} (hlate : late t = es ++ rest) :
    Ordered least origin issued (placed ++ es) (Function.update late t rest)
      ⟨s.memory.overlay (writesOf es), Function.update s.queue t (writesOf rest)⟩ := by
  have hmem : ∀ e ∈ es, e ∈ late t := fun e he => hlate ▸ List.mem_append_left _ he
  refine ⟨?_, ?_, ?_, ?_⟩
  · intro u
    rw [List.filter_append]
    by_cases hu : u = t
    · subst hu
      have hall : es.filter (·.1.thread = u) = es :=
        List.filter_eq_self.mpr fun e he => by simpa using h.thread_of_late (hmem e he)
      rw [h.split u, hlate, hall, Function.update_self, List.append_assoc]
    · have hnone : es.filter (·.1.thread = u) = [] := by
        rw [List.filter_eq_nil_iff]
        intro e he hthread
        have := h.thread_of_late (hmem e he)
        simp_all
      rw [h.split u, hnone, List.append_nil, Function.update_of_ne hu]
  · exact h.flat.append (runs_of_waits (fun e he => h.waits t e (hmem e he)) _)
  · intro u
    by_cases hu : u = t
    · subst hu
      simp
    · simp [hu, h.queue u]
  · intro u e he
    by_cases hu : u = t
    · subst hu
      rw [Function.update_self] at he
      exact h.waits u e (hlate ▸ List.mem_append_right _ he)
    · rw [Function.update_of_ne hu] at he
      exact h.waits u e he

/-- A drain places the store it brings to memory, and the fences before it. -/
theorem Ordered.drain (h : Ordered least origin issued placed late s) (hs : Drain s s') :
    ∃ placed' late', Ordered least origin issued placed' late' s' := by
  cases hs with
  | @oldest t w rest hq =>
    rw [h.queue t, writesOf, List.filterMap_eq_cons_iff] at hq
    obtain ⟨fences, e, after, hlate, hfences, hwrite, hafter⟩ := hq
    have hsplit : late t = (fences ++ [e]) ++ after := by simpa using hlate
    have hwrites : writesOf (fences ++ [e]) = [w] := by
      rw [writesOf, List.filterMap_append, List.filterMap_eq_nil_iff.mpr hfences]
      simp [hwrite]
    have hnext := h.advance hsplit
    rw [hwrites, writesOf, hafter] at hnext
    exact ⟨_, _, hnext⟩

theorem Ordered.drains (h : Ordered least origin issued placed late s) (hs : Drains s s') :
    ∃ placed' late', Ordered least origin issued placed' late' s' := by
  induction hs with
  | refl => exact ⟨_, _, h⟩
  | tail _ hlast ih =>
    obtain ⟨_, _, ih⟩ := ih
    exact ih.drain hlast

theorem Ordered.settle (h : Ordered least origin issued placed late s) (t : ThreadId) :
    Ordered least origin issued (placed ++ late t) (Function.update late t []) (s.settle t) := by
  have hnext := h.advance (t := t) (List.append_nil _).symm
  rwa [← h.queue t] at hnext

/-- An operation that may wait is late at first. -/
theorem Ordered.defer (h : Ordered least origin issued placed late s) {e : Issue × Outcome}
    (he : Waits least e) : Ordered least origin (issued ++ [e]) placed
      (Function.update late e.1.thread (late e.1.thread ++ [e]))
      ⟨s.memory, Function.update s.queue e.1.thread
        (s.queue e.1.thread ++ e.1.op.write?.toList)⟩ := by
  refine ⟨?_, h.flat, ?_, ?_⟩
  · intro u
    rw [List.filter_append, h.split u]
    by_cases hu : u = e.1.thread
    · subst hu
      simp
    · simp [hu, Ne.symm hu]
  · intro u
    by_cases hu : u = e.1.thread
    · subst hu
      cases hw : e.1.op.write? <;> simp [h.queue, writesOf, hw]
    · simp [hu, h.queue u]
  · intro u f hf
    by_cases hu : u = e.1.thread
    · subst hu
      rw [Function.update_self] at hf
      rcases List.mem_append.mp hf with hf | hf
      · exact h.waits _ f hf
      · rw [List.mem_singleton.mp hf]
        exact he
    · rw [Function.update_of_ne hu] at hf
      exact h.waits u f hf

/-- An operation of a thread that is not late takes its place at once. -/
theorem Ordered.place (h : Ordered least origin issued placed late s) {i : Issue} {a : Answer}
    {after : Image} (hnone : late i.thread = []) (heff : s.memory.Effect i.op a after) :
    Ordered least origin (issued ++ [(i, .ok a)]) (placed ++ [(i, .ok a)]) late
      ⟨after, s.queue⟩ := by
  refine ⟨?_, h.flat.append (.cons heff (.nil _)), h.queue, h.waits⟩
  intro u
  rw [List.filter_append, List.filter_append, h.split u]
  by_cases hu : i.thread = u
  · subst hu
    simp [hnone]
  · simp [hu]

/-- Nothing deferred is late at a load of a fenced program. -/
theorem Ordered.not_deferred (h : Ordered least origin issued placed late s) {i : Issue}
    {rest : List Issue} (hfenced : Fenced least (issued.map (·.1) ++ i :: rest))
    (hload : i.op.isLoad = true) : ∀ e ∈ late i.thread, e.1.op.isDeferred least = false := by
  intro e he
  by_contra hdeferred
  obtain ⟨before, after, hlate⟩ := List.append_of_mem he
  have hthread := h.thread_of_late he
  have hsplit := h.split i.thread
  rw [hlate, ← List.append_assoc] at hsplit
  obtain ⟨l₁, l₂, hissued, -, hfilter⟩ := List.filter_eq_append_iff.mp hsplit
  obtain ⟨l₃, l₄, rfl, -, -, hafter⟩ := List.filter_eq_cons_iff.mp hfilter
  have hlist : issued.map (·.1) ++ i :: rest =
      (l₁ ++ l₃).map (·.1) ++ e.1 :: l₄.map (·.1) ++ i :: rest := by
    simp [hissued]
  rw [hlist] at hfenced
  obtain ⟨k, hk, hsame, hstrong⟩ := hfenced.exists_strong hthread (by simpa using hdeferred) hload
  obtain ⟨f, hf, rfl⟩ := List.mem_map.mp hk
  -- what stands behind the store is late as well, so not strong
  have hmem : f ∈ late i.thread := by
    have hin : f ∈ l₄.filter (·.1.thread = i.thread) :=
      List.mem_filter.mpr ⟨hf, by simpa using hsame⟩
    rw [hafter] at hin
    rw [hlate]
    exact List.mem_append_right _ (List.mem_cons_of_mem _ hin)
  have hweak := (h.waits _ f hmem).weak
  rw [hstrong] at hweak
  contradiction

theorem write?_eq_none {e : Issue × Outcome} (h : e.1.op.isDeferred least = false)
    (he : Waits least e) : e.1.op.write? = none := by
  obtain ⟨⟨t, flags, objects, op⟩, o⟩ := e
  have hweak := he.weak
  cases op with
  | store l v r => simp_all [Op.isDeferred, Op.isStrong]
  | _ => rfl

/-- An operation of a fenced program takes its place or is late. -/
theorem Ordered.effect (h : Ordered least origin issued placed late s) {i : Issue} {a : Answer}
    {rest : List Issue} (hplain : i.op.isPlain = true)
    (hfenced : Fenced least (issued.map (·.1) ++ i :: rest))
    (heff : Effect least i.thread false i.objects s i.op a s') :
    ∃ placed' late', Ordered least origin (issued ++ [(i, .ok a)]) placed' late' s' := by
  obtain ⟨t, flags, objects, op⟩ := i
  have hsettled := h.settle t
  have hempty : Function.update late t [] t = [] := Function.update_self ..
  cases heff with
  | @store l v r =>
    cases hseq : (r ||| least).isSeqCst with
    | true =>
      have hnext := hsettled.place (i := ⟨t, flags, objects, .store l v r⟩) hempty .store
      rw [Tso.store, hseq]
      exact ⟨_, _, hnext⟩
    | false =>
      have hwaits : Waits least (⟨t, flags, objects, .store l v r⟩, .ok .done) :=
        ⟨rfl, rfl, rfl, hseq⟩
      rw [Tso.store, hseq]
      exact ⟨_, _, h.defer hwaits⟩
  | @load l r =>
    -- only fences are late, so the load finds memory itself
    have hnone : writesOf (late t) = [] := List.filterMap_eq_nil_iff.mpr fun e he =>
      write?_eq_none (h.not_deferred hfenced rfl e he) (h.waits t e he)
    have hload : s.load t false l = s.memory.read l := by
      show (s.memory.overlay (s.queue t)).read l = _
      rw [h.queue t, hnone]
      rfl
    have hsame : s.settle t = s := by
      apply Tso.ext
      · show s.memory.overlay (s.queue t) = _
        rw [h.queue t, hnone]
        rfl
      · intro u
        by_cases hu : u = t
        · subst hu
          rw [h.queue u, hnone]
          simp [Tso.settle]
        · simp [Tso.settle, hu]
    rw [hsame] at hsettled
    rw [hload]
    exact ⟨_, _, hsettled.place (i := ⟨t, flags, objects, .load l r⟩) hempty .load⟩
  | @fence r =>
    cases hseq : (r ||| least).isSeqCst with
    | true =>
      exact ⟨_, _, hsettled.place (i := ⟨t, flags, objects, .fence r⟩) hempty .fence⟩
    | false =>
      have hwaits : Waits least (⟨t, flags, objects, .fence r⟩, .ok .done) :=
        ⟨rfl, rfl, rfl, hseq⟩
      have hnext := h.defer hwaits
      have hsame : (⟨s.memory, Function.update s.queue t (s.queue t ++ [])⟩ : Tso) = s := by
        simp
      exact ⟨_, _, hsame ▸ hnext⟩
  | _ => contradiction

/-- A whole run of a fenced program. -/
theorem Ordered.run (h : Ordered least origin issued placed late s)
    {steps : List (Issue × Answer × Tso)} (hrun : Run least s steps)
    (hplain : ∀ e ∈ steps, e.1.flags.bypassed = false ∧ e.1.op.isPlain = true)
    (hfenced : Fenced least (issued.map (·.1) ++ steps.map (·.1))) :
    ∃ placed' late' s', Ordered least origin (issued ++ steps.map fun e => (e.1, .ok e.2.1))
      placed' late' s' := by
  induction hrun generalizing issued placed late with
  | nil s => exact ⟨placed, late, s, by simpa using h⟩
  | @cons s s' i a rest hstep hrest ih =>
    obtain ⟨x, y, hx, heff, hy⟩ := hstep
    obtain ⟨hdirect, hop⟩ := hplain (i, a, s') (List.mem_cons_self ..)
    obtain ⟨_, _, hx⟩ := h.drains hx
    rw [hdirect] at heff
    obtain ⟨_, _, hy⟩ := (hx.effect hop hfenced heff).choose_spec.choose_spec.drains hy
    have hrest := ih hy (fun e he => hplain e (List.mem_cons_of_mem _ he)) (by simpa using hfenced)
    simpa using hrest

/-- In the end everything may take its place. -/
theorem Ordered.finish (h : Ordered least origin issued placed late s) (ts : List ThreadId) :
    ∃ placed' late' s', Ordered least origin issued placed' late' s' ∧
      (∀ t ∈ ts, late' t = []) ∧ ∀ t, late t = [] → late' t = [] := by
  induction ts generalizing placed late s with
  | nil => exact ⟨placed, late, s, h, by simp, fun _ => id⟩
  | cons t rest ih =>
    obtain ⟨placed', late', s', h', hrest, hkeep⟩ := ih (h.settle t)
    refine ⟨placed', late', s', h', ?_, ?_⟩
    · intro u hu
      rcases List.mem_cons.mp hu with rfl | hu
      · exact hkeep u (Function.update_self ..)
      · exact hrest u hu
    · intro u hu
      apply hkeep
      by_cases hut : u = t
      · subst hut
        exact Function.update_self ..
      · rwa [Function.update_of_ne hut]

theorem ordered_start (least : Order) (i : Image) : Ordered least i [] [] (fun _ => []) (start i) :=
  ⟨fun _ => rfl, .nil i, fun _ => rfl, fun _ _ he => by contradiction⟩

/-- What a fenced program does on the reference machine, flat memory does in some order that keeps
every thread's own. -/
theorem exists_runs {i : Image} {steps : List (Issue × Answer × Tso)}
    (hrun : Run least (start i) steps)
    (hplain : ∀ e ∈ steps, e.1.flags.bypassed = false ∧ e.1.op.isPlain = true)
    (hfenced : Fenced least (steps.map (·.1))) :
    ∃ es final, i.Runs es final ∧ ∀ t, es.filter (·.1.thread = t) =
      (steps.map fun e => (e.1, Except.ok e.2.1)).filter (·.1.thread = t) := by
  obtain ⟨_, late, s, h⟩ := (ordered_start least i).run hrun hplain hfenced
  obtain ⟨placed, late', s', h', hempty, -⟩ := h.finish (steps.map (·.1.thread))
  refine ⟨placed, s'.memory, h'.flat, ?_⟩
  intro t
  have hsplit := h'.split t
  have hnone : late' t = [] := by
    rw [List.eq_nil_iff_forall_not_mem]
    intro e he
    have hmem : e ∈ (steps.map fun e => (e.1, Except.ok e.2.1)).filter (·.1.thread = t) := by
      rw [← List.nil_append (steps.map _), hsplit]
      exact List.mem_append_right _ he
    obtain ⟨hmem, hthread⟩ := List.mem_filter.mp hmem
    obtain ⟨f, hf, rfl⟩ := List.mem_map.mp hmem
    have ht : t ∈ steps.map (·.1.thread) :=
      List.mem_map.mpr ⟨f, hf, by simpa using hthread⟩
    rw [hempty t ht] at he
    contradiction
  rw [hnone, List.append_nil, List.nil_append] at hsplit
  exact hsplit.symm

end Tso

namespace Machine

/-- Whatever the capacity, the order of turns and the host's choices: a fenced program of stores,
loads and fences does what it does in some order on flat memory, with the same answers and with
every thread's operations in their own order. -/
theorem fenced_is_sequential (c : Config) {h : Scripted} (hfit : h.Fits) {is : List Issue}
    (hin : ∀ i ∈ is, ∀ l ∈ i.op.locations, h.Covers l)
    (hplain : ∀ i ∈ is, i.flags.bypassed = false ∧ i.op.isPlain = true)
    (hfenced : Fenced c.minOrder is)
    (hok : ∀ o ∈ (create c h).outcomes is, o.isOk = true) :
    ∃ es final, h.image.Runs es final ∧ ∀ t, es.filter (·.1.thread = t) =
      (((create c h).history is).map fun e => (e.1, e.2.1)).filter (·.1.thread = t) := by
  obtain ⟨steps, hrun, hsame⟩ := exists_run (sound_create c hfit) hin hok
  have hissues : steps.map (·.1) = is := by
    have hfst := congrArg (List.map Prod.fst) hsame
    rw [List.map_map, List.map_map] at hfst
    exact hfst.symm.trans (map_fst_history _ _)
  have houtcomes : ((create c h).history is).map (fun e => (e.1, e.2.1)) =
      steps.map fun e => (e.1, .ok e.2.1) := by
    have hfst := congrArg (List.map fun e => (e.1, e.2.1)) hsame
    rwa [List.map_map, List.map_map] at hfst
  rw [houtcomes]
  refine Tso.exists_runs hrun ?_ (by rwa [hissues])
  intro e he
  exact hplain e.1 (hissues ▸ List.mem_map_of_mem he)

/-- Two threads that store, fence and load each other's location. -/
theorem fenced_is_sequential_storeBuffering :
    let x : Location := ⟨⟨0x10000000⟩, 32⟩
    let y : Location := ⟨⟨0x10000008⟩, 32⟩
    let is : List Issue :=
      [{ thread := ⟨1⟩, op := .store x 1 .monotonic }, { thread := ⟨2⟩, op := .store y 1 .monotonic },
        { thread := ⟨1⟩, op := .fence .seqCst }, { thread := ⟨1⟩, op := .load y .monotonic },
        { thread := ⟨2⟩, op := .fence .seqCst }, { thread := ⟨2⟩, op := .load x .monotonic }]
    let h := Scripted.create 16
    (create {} h).outcomes is =
      [.ok .done, .ok .done, .ok .done, .ok (.value 0), .ok .done, .ok (.value 1)] ∧
    ∃ es final, h.image.Runs es final ∧ ∀ t, es.filter (·.1.thread = t) =
      (((create {} h).history is).map fun e => (e.1, e.2.1)).filter (·.1.thread = t) :=
  ⟨by decide +kernel, fenced_is_sequential {} (by unfold Scripted.Fits; decide) (by decide)
    (by decide) (by decide) (by decide +kernel)⟩

end Machine

end StoreBuffer
