import StoreBuffer.Proofs.Reference.Machine

/-! # Debts

A machine that drains only what somebody is about to look at lags behind one that drains at any
moment. `Tso.Owes d c s` says that `c` lags behind `s` by the writes in `d`: `s` has drained them, in
this order, and `c` has not.

* `Owes.drains`: what `s` drains is added to the debt.
* `Owes.enqueue`: a store of both leaves the debt as it is.
* `Owes.advance`: `c` may pay off, thread by thread, whatever comes up to a write, of all threads that
  the debt up to there says to have written to the same location; the rest of the debt stays. -/

namespace StoreBuffer

/-- Writes and the threads they come from, oldest first. -/
abbrev Debt := List (ThreadId × Write)

namespace Debt

/-- The thread has a write to the location. -/
def concerns (l : Location) (t : ThreadId) (d : Debt) : Bool :=
  d.any fun e => decide (e.1 = t) && decide (e.2.loc = l)

/-- Number of writes that a thread pays off with those to the location. -/
def dues (l : Location) (t : ThreadId) (d : Debt) : Nat :=
  if d.concerns l t then d.countP (·.1 = t) else 0

theorem concerns_iff {l : Location} {t : ThreadId} {d : Debt} :
    d.concerns l t = true ↔ ∃ e ∈ d, e.1 = t ∧ e.2.loc = l := by
  simp [concerns]

theorem dues_pos {l : Location} {t : ThreadId} {d : Debt} (h : d.concerns l t = true) :
    0 < d.dues l t := by
  obtain ⟨e, he, ht, -⟩ := concerns_iff.mp h
  rw [dues, if_pos h]
  exact List.countP_pos_iff.mpr ⟨e, he, by simpa using ht⟩

/-- The last write to a location. -/
theorem exists_last_to {l : Location} {d : Debt} (h : ∃ e ∈ d, e.2.loc = l) :
    ∃ before e rest, d = before ++ [e] ++ rest ∧ e.2.loc = l ∧ ∀ f ∈ rest, f.2.loc ≠ l := by
  induction d with
  | nil => simp at h
  | cons f rest ih =>
    by_cases hrest : ∃ e ∈ rest, e.2.loc = l
    · obtain ⟨before, e, after, rfl, he, hafter⟩ := ih hrest
      exact ⟨f :: before, e, after, rfl, he, hafter⟩
    · obtain ⟨e, he, hl⟩ := h
      rcases List.mem_cons.mp he with rfl | he
      · exact ⟨[], e, rest, rfl, hl, fun g hg hloc => hrest ⟨g, hg, hloc⟩⟩
      · exact absurd ⟨e, he, hl⟩ hrest

/-- What the threads that `p` picks have written may come first, thread by thread, if the last write
of all is one of theirs and goes over whatever they share with other threads. -/
theorem overlay_gather {x y : Debt} {e : ThreadId × Write} {before after : Debt}
    (hx : x = before ++ [e]) (hy : y = after ++ [e]) {p : ThreadId → Bool}
    (hmem : ∀ f ∈ y, f ∈ x ∧ p f.1 = true)
    (hof : ∀ t, p t = true → y.filter (·.1 = t) = x.filter (·.1 = t))
    (hsame : ∀ f ∈ x, ∀ g ∈ x, ∀ a, f.2.region.contains a = true →
      g.2.region.contains a = true → f.2.loc = g.2.loc)
    (hlast : ∀ f ∈ x, f.2.loc = e.2.loc → p f.1 = true)
    (hown : ∀ f ∈ x, p f.1 = true → f.2.loc ≠ e.2.loc → ∀ g ∈ x, g.2.loc = f.2.loc → g.1 = f.1)
    (i : Image) : i.overlay (x.map (·.2)) =
      (i.overlay (y.map (·.2))).overlay ((x.filter fun f => !p f.1).map (·.2)) := by
  have he : e ∈ x := hx ▸ List.mem_append_right _ (List.mem_singleton_self e)
  funext a
  cases hcover : e.2.region.contains a with
  | true =>
    have hwritten (j : Image) (d : Debt) : j.overlay ((d ++ [e]).map (·.2)) a =
        (e.2.byteAt? a).getD 0 := by
      have hsome : (e.2.byteAt? a).isSome = true := by rw [Write.isSome_byteAt?, hcover]
      obtain ⟨byte, hbyte⟩ := Option.isSome_iff_exists.mp hsome
      rw [List.map_append, Image.overlay_append]
      show (Image.write _ e.2) a = _
      rw [Image.write, hbyte]
      rfl
    have hrest : ∀ f ∈ x.filter (fun f => !p f.1), f.2.region.contains a = false := by
      intro f hf
      obtain ⟨hfx, hp⟩ := List.mem_filter.mp hf
      cases hfa : f.2.region.contains a with
      | false => rfl
      | true =>
        rw [hlast f hfx (hsame f hfx e he a hfa hcover)] at hp
        contradiction
    refine Eq.trans ?_ (Image.overlay_of_not_contains hrest _).symm
    rw [hx, hy, hwritten, hwritten]
  | false =>
    by_cases hpicked : ∃ f ∈ x, p f.1 = true ∧ f.2.region.contains a = true
    · -- a single thread has written there, and it is picked
      obtain ⟨f, hfx, hp, hf⟩ := hpicked
      have hloc : f.2.loc ≠ e.2.loc := by
        intro heq
        have hcover' : e.2.loc.region.contains a = true := heq ▸ hf
        rw [Write.region] at hcover
        rw [hcover] at hcover'
        contradiction
      have honly : ∀ g ∈ x, decide (g.1 = f.1) = false → g.2.region.contains a = false := by
        intro g hg hother
        cases hga : g.2.region.contains a with
        | false => rfl
        | true =>
          have hgf := hown f hfx hp hloc g hg (hsame g hg f hfx a hga hf)
          simp [hgf] at hother
      have hrest : ∀ g ∈ x.filter (fun g => !p g.1), g.2.region.contains a = false := by
        intro g hg
        obtain ⟨hgx, hgp⟩ := List.mem_filter.mp hg
        apply honly g hgx
        rw [decide_eq_false_iff_not]
        intro hgf
        rw [hgf, hp] at hgp
        contradiction
      refine Eq.trans ?_ (Image.overlay_of_not_contains hrest _).symm
      rw [← Image.overlay_filter_apply honly rfl, ← hof f.1 hp,
        Image.overlay_filter_apply (fun g hg => honly g (hmem g hg).1) rfl]
    · -- no picked thread has written there
      have hnone : ∀ f ∈ x, p f.1 = true → f.2.region.contains a = false := by
        intro f hf hp
        rw [← Bool.not_eq_true]
        intro hfa
        exact hpicked ⟨f, hf, hp, hfa⟩
      refine (Image.overlay_filter_apply (fun f hf hp => hnone f hf (by simpa using hp)) ?_).symm
      exact Image.overlay_of_not_contains (fun f hf => hnone f (hmem f hf).1 (hmem f hf).2) i

/-- Debts of threads that, once they have written where others write as well, write nowhere else.
`own t l` says that nobody but `t` writes to `l`. -/
structure Tame (own : ThreadId → Location → Prop) (d : Debt) : Prop where
  alone : ∀ f ∈ d, ∀ t, own t f.2.loc → f.1 = t
  stays : ∀ t, (d.filter (·.1 = t)).Pairwise fun f g => f.2.loc = g.2.loc ∨ own t f.2.loc
  same : ∀ f ∈ d, ∀ g ∈ d, ∀ a, f.2.region.contains a = true → g.2.region.contains a = true →
    f.2.loc = g.2.loc

section Tame

variable {own : ThreadId → Location → Prop} {x before : Debt} {e : ThreadId × Write}

theorem Tame.of_append {rest : Debt} (h : Tame own (x ++ rest)) : Tame own x := by
  refine ⟨fun f hf => h.alone f (List.mem_append_left _ hf), fun t => ?_, fun f hf g hg =>
    h.same f (List.mem_append_left _ hf) g (List.mem_append_left _ hg)⟩
  have hstays := h.stays t
  rw [List.filter_append] at hstays
  exact (List.pairwise_append.mp hstays).1

/-- The last write of a thread concerned is one to the location. -/
theorem Tame.exists_last (h : Tame own x) (hx : x = before ++ [e]) {t : ThreadId}
    (hc : x.concerns e.2.loc t = true) :
    ∃ init f, x.filter (·.1 = t) = init ++ [f] ∧ f.2.loc = e.2.loc := by
  have he : e ∈ x := hx ▸ List.mem_append_right _ (List.mem_singleton_self e)
  obtain ⟨g, hg, hgt, hloc⟩ := concerns_iff.mp hc
  by_cases het : e.1 = t
  · refine ⟨before.filter (·.1 = t), e, ?_, rfl⟩
    rw [hx, List.filter_append, List.filter_cons_of_pos (by simpa using het), List.filter_nil]
  · have hmem : g ∈ x.filter (·.1 = t) := List.mem_filter.mpr ⟨hg, by simpa using hgt⟩
    have hne := List.ne_nil_of_mem hmem
    refine ⟨_, _, (List.dropLast_concat_getLast hne).symm, ?_⟩
    have hstays := h.stays t
    rw [← List.dropLast_concat_getLast hne] at hstays hmem
    rcases List.mem_append.mp hmem with hinit | hlast
    · have hrel := (List.pairwise_append.mp hstays).2.2 g hinit _ (List.mem_singleton_self _)
      rcases hrel with hsame | hown
      · rw [← hsame, hloc]
      · exact absurd (h.alone e he t (hloc ▸ hown)) het
    · rw [← List.mem_singleton.mp hlast, hloc]

/-- Where else a thread concerned has written, nobody else has. -/
theorem Tame.unshared (h : Tame own x) (hx : x = before ++ [e]) {f : ThreadId × Write}
    (hf : f ∈ x) (hc : x.concerns e.2.loc f.1 = true) (hloc : f.2.loc ≠ e.2.loc) :
    ∀ g ∈ x, g.2.loc = f.2.loc → g.1 = f.1 := by
  obtain ⟨init, z, hsplit, hz⟩ := h.exists_last hx hc
  have hmem : f ∈ x.filter (·.1 = f.1) := List.mem_filter.mpr ⟨hf, by simp⟩
  have hstays := h.stays f.1
  rw [hsplit] at hmem hstays
  rcases List.mem_append.mp hmem with hinit | hlast
  · rcases (List.pairwise_append.mp hstays).2.2 f hinit z (List.mem_singleton_self z) with
      hsame | hown
    · exact absurd (hsame.trans hz) hloc
    · intro g hg hgf
      exact h.alone g hg f.1 (hgf ▸ hown)
  · rw [List.mem_singleton.mp hlast, hz] at hloc
    exact absurd rfl hloc

end Tame

end Debt

namespace Tso

/-- For each entry the thread's oldest writes reach memory, as many as it says. -/
def releases (s : Tso) (ks : List (ThreadId × Nat)) : Tso :=
  ks.foldl (fun s k => s.release k.1 k.2) s

theorem releases_cons (s : Tso) (k : ThreadId × Nat) (ks : List (ThreadId × Nat)) :
    s.releases (k :: ks) = (s.release k.1 k.2).releases ks := rfl

theorem releases_append (s : Tso) (ks js : List (ThreadId × Nat)) :
    s.releases (ks ++ js) = (s.releases ks).releases js := List.foldl_append

theorem queue_releases_of_not_mem {s : Tso} {ks : List (ThreadId × Nat)} {t : ThreadId}
    (h : t ∉ ks.map (·.1)) : (s.releases ks).queue t = s.queue t := by
  induction ks generalizing s with
  | nil => rfl
  | cons k rest ih =>
    rw [List.map_cons, List.mem_cons, not_or] at h
    rw [releases_cons, ih h.2, release_queue_of_ne _ h.1]

theorem queue_releases_of_mem {s : Tso} {ks : List (ThreadId × Nat)}
    (hnodup : (ks.map (·.1)).Nodup) {k : ThreadId × Nat} (h : k ∈ ks) :
    (s.releases ks).queue k.1 = (s.queue k.1).drop k.2 := by
  induction ks generalizing s with
  | nil => contradiction
  | cons j rest ih =>
    obtain ⟨hj, hrest⟩ := List.nodup_cons.mp hnodup
    rw [releases_cons]
    rcases List.mem_cons.mp h with rfl | h
    · rw [queue_releases_of_not_mem hj, release_queue_self]
    · have hne : k.1 ≠ j.1 := fun heq => hj (List.mem_map.mpr ⟨k, h, heq⟩)
      rw [ih hrest h, release_queue_of_ne _ hne]

theorem memory_releases {s : Tso} {ks : List (ThreadId × Nat)} (hnodup : (ks.map (·.1)).Nodup) :
    (s.releases ks).memory = s.memory.overlay (ks.flatMap fun k => (s.queue k.1).take k.2) := by
  induction ks generalizing s with
  | nil => rfl
  | cons k rest ih =>
    obtain ⟨hk, hrest⟩ := List.nodup_cons.mp hnodup
    have hsame : (rest.flatMap fun j => ((s.release k.1 k.2).queue j.1).take j.2) =
        rest.flatMap fun j => (s.queue j.1).take j.2 := by
      rw [List.flatMap, List.flatMap]
      congr 1
      apply List.map_congr_left
      intro j hj
      have hne : j.1 ≠ k.1 := fun heq => hk (List.mem_map.mpr ⟨j, hj, heq⟩)
      rw [release_queue_of_ne _ hne]
    rw [releases_cons, ih hrest, hsame, List.flatMap_cons, Image.overlay_append]
    rfl

/-- `s` has drained the writes of the debt, and `c` has not. -/
structure Owes (d : Debt) (c s : Tso) : Prop where
  memory : s.memory = c.memory.overlay (d.map (·.2))
  queue : ∀ t, c.queue t = (d.filter (·.1 = t)).map (·.2) ++ s.queue t

variable {d : Debt} {c s s' : Tso}

theorem Owes.refl (s : Tso) : Owes [] s s := ⟨rfl, fun _ => rfl⟩

theorem Owes.drain (h : Owes d c s) (hs : Drain s s') : ∃ e, Owes (d ++ [e]) c s' := by
  cases hs with
  | @oldest t w rest hq =>
    refine ⟨(t, w), ?_, ?_⟩
    · rw [List.map_append, Image.overlay_append, ← h.memory]
      rfl
    · intro u
      rw [h.queue, List.filter_append, List.map_append]
      by_cases hu : u = t
      · subst hu
        simp [hq]
      · have hne : ¬ t = u := Ne.symm hu
        simp [hu, hne]

theorem Owes.drains (h : Owes d c s) (hs : Drains s s') : ∃ d', Owes (d ++ d') c s' := by
  induction hs with
  | refl => exact ⟨[], by rwa [List.append_nil]⟩
  | tail _ hstep ih =>
    obtain ⟨d', hd'⟩ := ih
    obtain ⟨e, he⟩ := hd'.drain hstep
    exact ⟨d' ++ [e], by rwa [← List.append_assoc]⟩

theorem Owes.enqueue (h : Owes d c s) (t : ThreadId) (w : Write) :
    Owes d (c.enqueue t w) (s.enqueue t w) := by
  refine ⟨h.memory, fun u => ?_⟩
  show Function.update c.queue t (c.queue t ++ [w]) u =
    _ ++ Function.update s.queue t (s.queue t ++ [w]) u
  by_cases hu : u = t
  · subst hu
    rw [Function.update_self, Function.update_self, h.queue, List.append_assoc]
  · rw [Function.update_of_ne hu, Function.update_of_ne hu, h.queue]

theorem Owes.take_dues {x rest : Debt} (h : Owes (x ++ rest) c s) (l : Location) (t : ThreadId) :
    (c.queue t).take (x.dues l t) =
      (x.filter fun e => decide (e.1 = t) && x.concerns l e.1).map (·.2) := by
  unfold Debt.dues
  cases hc : x.concerns l t with
  | true =>
    have hfilter : (x.filter fun e => decide (e.1 = t) && x.concerns l e.1) =
        x.filter (·.1 = t) := by
      apply List.filter_congr
      intro e _
      by_cases he : e.1 = t <;> simp [he, hc]
    rw [if_pos rfl, h.queue, List.filter_append, List.map_append, List.append_assoc, hfilter,
      List.countP_eq_length_filter, ← List.length_map (f := Prod.snd)]
    exact List.take_left
  | false =>
    have hfilter : (x.filter fun e => decide (e.1 = t) && x.concerns l e.1) = [] := by
      rw [List.filter_eq_nil_iff]
      intro e _
      by_cases he : e.1 = t <;> simp [he, hc]
    rw [hfilter]
    rfl

theorem Owes.drop_dues {x rest : Debt} (h : Owes (x ++ rest) c s) (l : Location) (t : ThreadId) :
    (c.queue t).drop (x.dues l t) = (((x.filter fun e => !x.concerns l e.1) ++ rest).filter
      (·.1 = t)).map (·.2) ++ s.queue t := by
  unfold Debt.dues
  rw [h.queue, List.filter_append, List.filter_append, List.map_append, List.map_append,
    List.append_assoc, List.append_assoc, List.filter_filter]
  cases hc : x.concerns l t with
  | true =>
    have hfilter : (x.filter fun e => decide (e.1 = t) && !x.concerns l e.1) = [] := by
      rw [List.filter_eq_nil_iff]
      intro e _
      by_cases he : e.1 = t <;> simp [he, hc]
    rw [if_pos rfl, hfilter, List.countP_eq_length_filter, ← List.length_map (f := Prod.snd)]
    exact List.drop_left
  | false =>
    have hfilter : (x.filter fun e => decide (e.1 = t) && !x.concerns l e.1) =
        x.filter (·.1 = t) := by
      apply List.filter_congr
      intro e _
      by_cases he : e.1 = t <;> simp [he, hc]
    rw [hfilter]
    rfl

end Tso

namespace Debt

/-- What a thread contributes when the threads contribute one after the other. -/
theorem filter_flatMap {ks : List (ThreadId × Nat)} (hnodup : (ks.map (·.1)).Nodup)
    {k : ThreadId × Nat} (hk : k ∈ ks) {g : ThreadId → Debt} (hg : ∀ t, ∀ e ∈ g t, e.1 = t) :
    (ks.flatMap fun j => g j.1).filter (·.1 = k.1) = g k.1 := by
  have hother {t : ThreadId} (ht : t ≠ k.1) : (g t).filter (·.1 = k.1) = [] := by
    rw [List.filter_eq_nil_iff]
    intro e he
    rw [hg t e he]
    simpa using ht
  have hself : (g k.1).filter (·.1 = k.1) = g k.1 :=
    List.filter_eq_self.mpr fun e he => by simp [hg k.1 e he]
  induction ks with
  | nil => contradiction
  | cons j rest ih =>
    obtain ⟨hj, hrest⟩ := List.nodup_cons.mp hnodup
    rw [List.flatMap_cons, List.filter_append]
    rcases List.mem_cons.mp hk with rfl | hk
    · have hnil : (rest.flatMap fun j => g j.1).filter (·.1 = k.1) = [] := by
        rw [List.filter_eq_nil_iff]
        intro e he
        obtain ⟨i, hi, hei⟩ := List.mem_flatMap.mp he
        rw [hg i.1 e hei]
        intro heq
        exact hj (List.mem_map.mpr ⟨i, hi, by simpa using heq⟩)
      rw [hself, hnil, List.append_nil]
    · have hne : j.1 ≠ k.1 := fun heq => hj (List.mem_map.mpr ⟨k, hk, heq.symm⟩)
      rw [hother hne, List.nil_append, ih hrest hk]

end Debt

namespace Tso

variable {d : Debt} {c s s' : Tso}

theorem releases_zero {s : Tso} {ks : List (ThreadId × Nat)} (h : ∀ k ∈ ks, k.2 = 0) :
    s.releases ks = s := by
  induction ks with
  | nil => rfl
  | cons k rest ih =>
    rw [releases_cons, h k (List.mem_cons_self ..), release_zero]
    exact ih fun j hj => h j (List.mem_cons_of_mem k hj)

/-- If nobody but one thread has anything to release, its writes reach memory or nothing happens. -/
theorem releases_of_one {s : Tso} {ks : List (ThreadId × Nat)} (hnodup : (ks.map (·.1)).Nodup)
    {t : ThreadId} {n : Nat} (h : ∀ k ∈ ks, k.2 = 0 ∨ k = (t, n)) :
    s.releases ks = s ∨ s.releases ks = s.release t n := by
  induction ks with
  | nil => exact .inl rfl
  | cons k rest ih =>
    obtain ⟨hk, hrest⟩ := List.nodup_cons.mp hnodup
    rw [releases_cons]
    rcases h k (List.mem_cons_self ..) with hzero | rfl
    · rw [hzero, release_zero]
      exact ih hrest fun j hj => h j (List.mem_cons_of_mem k hj)
    · refine .inr (releases_zero fun j hj => ?_)
      refine (h j (List.mem_cons_of_mem _ hj)).resolve_right ?_
      rintro rfl
      exact hk (List.mem_map.mpr ⟨_, hj, rfl⟩)

/-- What a thread concerned pays off ends with a write to the location. -/
theorem Owes.getElem?_dues {own : ThreadId → Location → Prop} {x rest before : Debt}
    {e : ThreadId × Write} (h : Owes (x ++ rest) c s) (hx : x = before ++ [e])
    (htame : Debt.Tame own x) (t : ThreadId) : x.dues e.2.loc t = 0 ∨
      ∃ w, (c.queue t)[x.dues e.2.loc t - 1]? = some w ∧ w.loc = e.2.loc := by
  unfold Debt.dues
  cases hc : x.concerns e.2.loc t with
  | false => exact .inl rfl
  | true =>
    obtain ⟨init, f, hsplit, hf⟩ := htame.exists_last hx hc
    refine .inr ⟨f.2, ?_, hf⟩
    rw [if_pos rfl, List.countP_eq_length_filter, h.queue, List.filter_append, hsplit]
    simp

/-- The lagging machine pays off what the threads that have written to a location owe, up to the last
of these writes. -/
theorem Owes.advance {own : ThreadId → Location → Prop} {x rest before : Debt}
    {e : ThreadId × Write} (h : Owes (x ++ rest) c s) (hx : x = before ++ [e])
    (htame : Debt.Tame own x)
    {ks js : List (ThreadId × Nat)} {n : Nat} (hks : ks = js ++ [(e.1, n)])
    (hdues : ∀ k ∈ ks, k.2 = x.dues e.2.loc k.1) (hnodup : (ks.map (·.1)).Nodup)
    (hall : ∀ t, x.concerns e.2.loc t = true → t ∈ ks.map (·.1)) :
    Owes ((x.filter fun f => !x.concerns e.2.loc f.1) ++ rest) (c.releases ks) s := by
  let g (t : ThreadId) : Debt := x.filter fun f => decide (f.1 = t) && x.concerns e.2.loc f.1
  have hg (t : ThreadId) (f : ThreadId × Write) (hf : f ∈ g t) :
      f ∈ x ∧ f.1 = t ∧ x.concerns e.2.loc f.1 = true := by
    simpa [g] using hf
  have hpaid : (c.releases ks).memory =
      c.memory.overlay ((ks.flatMap fun k => g k.1).map (·.2)) := by
    rw [memory_releases hnodup, List.map_flatMap, List.flatMap, List.flatMap]
    congr 2
    apply List.map_congr_left
    intro k hk
    rw [hdues k hk, h.take_dues]
  have he : x.concerns e.2.loc e.1 = true :=
    Debt.concerns_iff.mpr ⟨e, hx ▸ List.mem_append_right _ (List.mem_singleton_self e), rfl, rfl⟩
  refine ⟨?_, fun t => ?_⟩
  · have hlast : (ks.flatMap fun k => g k.1) = ((js.flatMap fun k => g k.1) ++
        before.filter fun f => decide (f.1 = e.1) && x.concerns e.2.loc f.1) ++ [e] := by
      have hge : g e.1 = (before.filter fun f => decide (f.1 = e.1) &&
          x.concerns e.2.loc f.1) ++ [e] := by
        have hsplit := congrArg
          (List.filter fun f => decide (f.1 = e.1) && x.concerns e.2.loc f.1) hx
        rw [List.filter_append, List.filter_cons_of_pos (by simp [he]), List.filter_nil] at hsplit
        exact hsplit
      rw [hks, List.flatMap_append, List.flatMap_singleton, hge, List.append_assoc]
    have hof (t : ThreadId) (ht : x.concerns e.2.loc t = true) :
        (ks.flatMap fun k => g k.1).filter (·.1 = t) = x.filter (·.1 = t) := by
      obtain ⟨k, hk, rfl⟩ := List.mem_map.mp (hall t ht)
      rw [Debt.filter_flatMap hnodup hk fun t f hf => (hg t f hf).2.1]
      apply List.filter_congr
      intro f _
      by_cases hf : f.1 = k.1 <;> simp [hf, ht]
    rw [h.memory, hpaid, List.map_append, List.map_append, Image.overlay_append,
      Image.overlay_append]
    congr 1
    refine Debt.overlay_gather hx hlast ?_ hof htame.same ?_
      (fun f hf hc hloc => htame.unshared hx hf hc hloc) _
    · intro f hf
      obtain ⟨k, -, hfk⟩ := List.mem_flatMap.mp hf
      exact ⟨(hg _ f hfk).1, (hg _ f hfk).2.2⟩
    · intro f hf hloc
      exact Debt.concerns_iff.mpr ⟨f, hf, rfl, hloc⟩
  · rw [← h.drop_dues]
    by_cases ht : t ∈ ks.map (·.1)
    · obtain ⟨k, hk, rfl⟩ := List.mem_map.mp ht
      rw [queue_releases_of_mem hnodup hk, hdues k hk]
    · have hnone : x.dues e.2.loc t = 0 := if_neg (mt (hall t) ht)
      rw [queue_releases_of_not_mem ht, hnone, List.drop_zero]

end Tso

end StoreBuffer
