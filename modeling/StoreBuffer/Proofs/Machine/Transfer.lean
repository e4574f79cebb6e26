import StoreBuffer.Proofs.Host.Congruence
import StoreBuffer.Proofs.Machine.Lockstep

/-! # Machines on related hosts

A machine knows its host through its calls only. Machines that are the same but for their hosts stay
the same while the hosts answer alike: nothing else of a host can come into the buffers, the counters
or the log. -/

namespace StoreBuffer.Machine

open Visibility

variable {σ τ : Type} {R : σ → τ → Prop} {m : Machine σ} {m' : Machine τ}

/-- The machines are the same but for their hosts, which are related. -/
structure Like (R : σ → τ → Prop) (m : Machine σ) (m' : Machine τ) : Prop where
  session : m.toSession = m'.toSession
  log : m.log = m'.log
  host : R m.host m'.host

theorem Like.exists_host (h : Like R m m') :
    ∃ s log g k, m = ⟨s, g, log⟩ ∧ m' = ⟨s, k, log⟩ ∧ R g k := by
  obtain ⟨s, g, log⟩ := m
  obtain ⟨s', k, log'⟩ := m'
  obtain ⟨rfl, rfl, hk⟩ := h
  exact ⟨s, log, g, k, rfl, rfl, hk⟩

theorem Like.withHost (h : Like R m m') {S : σ → τ → Prop} {g : σ} {k : τ} (hk : S g k) :
    Like S (m.withHost g) (m'.withHost k) := ⟨h.session, h.log, hk⟩

theorem Like.note (h : Like R m m') (e : Event) : Like R (m.note e) (m'.note e) :=
  ⟨h.session, congrArg (e :: ·) h.log, h.host⟩

theorem Like.noteOperation (h : Like R m m') (e : Event) :
    Like R (m.noteOperation e) (m'.noteOperation e) := by
  unfold Machine.noteOperation
  rw [h.session]
  split
  · exact h.note e
  · exact h

theorem Like.count (h : Like R m m') (f : Stats → Stats) : Like R (m.count f) (m'.count f) :=
  ⟨congrArg (fun s : Session => { s with stats := f s.stats }) h.session, h.log, h.host⟩

theorem Like.withTable (h : Like R m m') (t : Table) : Like R (m.withTable t) (m'.withTable t) :=
  ⟨congrArg (fun s : Session => { s with table := t }) h.session, h.log, h.host⟩

theorem Like.prune (h : Like R m m') :
    Like R (m.withTable m.table.prune) (m'.withTable m'.table.prune) := by
  rw [h.session]
  exact h.withTable _

theorem Like.forward (h : Like R m m') (t : ThreadId) (loc : Location) (v : UInt64) :
    Both (Like R) (m.forward t loc v) (m'.forward t loc v) := by
  unfold Machine.forward
  rw [h.session]
  split
  · exact ⟨rfl, h⟩
  · split
    · exact ⟨rfl, h.count fun s => { s with loadsForwarded := s.loadsForwarded + 1 }⟩
    · exact ⟨rfl, h⟩

theorem Like.pushFence (h : Like R m m') (t : ThreadId) (l : Line) :
    Like R (m.pushFence t l).2 (m'.pushFence t l).2 := by
  unfold Machine.pushFence
  rw [h.session]
  split
  · exact h
  · split
    · exact h.withTable _
    · exact (h.withTable _).count fun s => { s with fencesBuffered := s.fencesBuffered + 1 }

theorem Like.discardRange (h : Like R m m') (only : Option ThreadId) (range : Region) :
    Both (Like R) (m.discardRange only range) (m'.discardRange only range) := by
  obtain ⟨s, log, g, k, rfl, rfl, hk⟩ := h.exists_host
  unfold Machine.discardRange
  dsimp only
  split <;> exact ⟨rfl, rfl, rfl, hk⟩

variable [Host σ] [Host τ]

theorem Like.flush (hR : Host.Calls R) (h : Like R m m') (t : ThreadId) :
    Like R (m.flush t) (m'.flush t) := by
  obtain ⟨s, log, g, k, rfl, rfl, hk⟩ := h.exists_host
  unfold Machine.flush
  dsimp only
  split
  · exact h
  · exact ⟨rfl, rfl, hR.storeAll _ hk⟩

theorem Like.flushPart (hR : Host.Calls R) (h : Like R m m') (t : ThreadId) (upTo : Nat)
    (loc : Location) : Like R (m.flushPart t upTo loc) (m'.flushPart t upTo loc) := by
  obtain ⟨s, log, g, k, rfl, rfl, hk⟩ := h.exists_host
  unfold Machine.flushPart
  dsimp only
  split
  · exact h
  · exact ⟨rfl, rfl, hR.storeAll _ hk⟩

theorem Like.dropOldest (hR : Host.Calls R) (h : Like R m m') (t : ThreadId) :
    Like R (m.dropOldest t) (m'.dropOldest t) := by
  obtain ⟨s, log, g, k, rfl, rfl, hk⟩ := h.exists_host
  unfold Machine.dropOldest
  dsimp only
  split
  · exact h
  · exact ⟨rfl, rfl, hR.storeAll _ hk⟩

/-! ## Resolving -/

theorem Like.chooseDrain (hR : Host.Calls R) (h : Like R m m') (reader : ThreadId)
    (loc : Location) (cs : List Candidate) :
    Both (Like R) (m.chooseDrain reader loc cs) (m'.chooseDrain reader loc cs) := by
  obtain ⟨hanswer, hhost⟩ := hR.choose (total cs) h.host
  unfold Machine.chooseDrain
  dsimp only
  rw [hanswer]
  exact ⟨rfl, ((h.withHost hhost).count _).note _⟩

theorem Like.chooseSource (hR : Host.Calls R) (h : Like R m m') (reader : ThreadId)
    (loc : Location) (ps : List Pick) :
    Both (Like R) (m.chooseSource reader loc ps) (m'.chooseSource reader loc ps) := by
  have hchoice : (if 1 < ps.length then Host.choose ps.length m.host else (0, m.host)).1 =
        (if 1 < ps.length then Host.choose ps.length m'.host else (0, m'.host)).1 ∧
      R (if 1 < ps.length then Host.choose ps.length m.host else (0, m.host)).2
        (if 1 < ps.length then Host.choose ps.length m'.host else (0, m'.host)).2 := by
    split
    · exact hR.choose _ h.host
    · exact ⟨rfl, h.host⟩
  unfold Machine.chooseSource
  dsimp only
  generalize (if 1 < ps.length then Host.choose ps.length m.host else (0, m.host)) = choice
    at hchoice ⊢
  generalize (if 1 < ps.length then Host.choose ps.length m'.host else (0, m'.host)) = choice'
    at hchoice ⊢
  obtain ⟨hanswer, hhost⟩ := hchoice
  rw [hanswer]
  cases ps[choice'.1]? with
  | none => exact ⟨rfl, h.withHost hhost⟩
  | some p => exact ⟨rfl, (h.withHost hhost).note _⟩

theorem Like.drainPick (hR : Host.Calls R) (h : Like R m m') (loc : Location) (p : Pick) :
    Like R (m.drainPick loc p) (m'.drainPick loc p) := by
  unfold Machine.drainPick
  split
  · exact h.flushPart hR ..
  · exact h

theorem Like.drainPicks (hR : Host.Calls R) (h : Like R m m') (loc : Location) (ps : List Pick) :
    Like R (m.drainPicks loc ps) (m'.drainPicks loc ps) := by
  have hdrained : Like R (ps.foldl (Machine.drainPick loc) m) (ps.foldl (Machine.drainPick loc) m') := by
    induction ps generalizing m m' with
    | nil => exact h
    | cons p rest ih => exact ih (h.drainPick hR loc p)
  exact hdrained.prune

theorem Like.resolve (hR : Host.Calls R) (h : Like R m m') (reader : ThreadId) (loc : Location)
    (own : Bool) : Like R (m.resolve reader loc own) (m'.resolve reader loc own) := by
  unfold Machine.resolve
  dsimp only
  rw [h.session]
  split
  · exact h
  · obtain ⟨hdrain, hnext⟩ := h.chooseDrain hR reader loc
      (m'.table.candidates reader own loc.region)
    rw [hdrain]
    split
    · exact hnext
    · obtain ⟨hsource, hlast⟩ := hnext.chooseSource hR reader loc (picks
        (m'.table.candidates reader own loc.region)
        (m'.chooseDrain reader loc (m'.table.candidates reader own loc.region)).1)
      rw [hsource]
      exact hlast.drainPicks hR ..

/-! ## Pushing -/

theorem Like.evictOldest (hR : Host.Calls R) (h : Like R m m') (t : ThreadId) (l : Line) :
    Like R (m.evictOldest t l) (m'.evictOldest t l) := by
  unfold Machine.evictOldest
  split
  · exact (h.resolve hR ..).dropOldest hR t
  · exact h.dropOldest hR t

theorem Like.evictWhileOverdue (hR : Host.Calls R) (h : Like R m m') (t : ThreadId) (n : Nat) :
    Like R (m.evictWhileOverdue t n) (m'.evictWhileOverdue t n) := by
  induction n generalizing m m' with
  | zero => exact h
  | succ n ih =>
    have hoverdue : m.overdue? t = m'.overdue? t := by
      unfold Machine.overdue? Machine.capacity
      rw [h.session]
    rw [Machine.evictWhileOverdue, Machine.evictWhileOverdue, hoverdue]
    cases m'.overdue? t with
    | none => exact h
    | some l => exact ih (h.evictOldest hR t l)

theorem Like.pushLine (hR : Host.Calls R) (h : Like R m m') (t : ThreadId) (l : Line) :
    Like R (m.pushLine t l) (m'.pushLine t l) := by
  have hcounted : Like R
      (if l.isStore then (m.note (.pushed t l)).count fun s =>
        { s with storesBuffered := s.storesBuffered + 1 } else m.note (.pushed t l))
      (if l.isStore then (m'.note (.pushed t l)).count fun s =>
        { s with storesBuffered := s.storesBuffered + 1 } else m'.note (.pushed t l)) := by
    split
    · exact (h.note _).count _
    · exact h.note _
  simp only [Machine.pushLine, Machine.mapTable_eq]
  generalize (if l.isStore then (m.note (.pushed t l)).count _ else m.note (.pushed t l)) = m₁
    at hcounted ⊢
  generalize (if l.isStore then (m'.note (.pushed t l)).count _ else m'.note (.pushed t l)) = m₁'
    at hcounted ⊢
  unfold Machine.evictExcess
  rw [hcounted.session]
  exact ((hcounted.withTable _).evictWhileOverdue hR t _).prune

theorem Like.push (hR : Host.Calls R) (h : Like R m m') (t : ThreadId) (l : Line) :
    Both (Like R) (m.push t l) (m'.push t l) := by
  have hnumbered : m.numbered l = m'.numbered l := by
    unfold Machine.numbered
    rw [h.session]
  unfold Machine.push
  rw [hnumbered]
  cases m'.numbered l with
  | error f => exact ⟨rfl, h⟩
  | ok l => exact ⟨rfl, h.pushLine hR t l⟩

/-! ## Operations -/

theorem Like.lockstep (hR : Host.Calls R) : Lockstep (Like R) where
  thread h := hR.thread h.host
  hasForeign t h := by rw [h.session]
  note e h := h.note e
  noteOperation e h := h.noteOperation e
  count f _ h := h.count f
  choose n h := ⟨(hR.choose n h.host).1, h.withHost (hR.choose n h.host).2⟩
  objectAt a h := ⟨(hR.objectAt a h.host).1, h.withHost (hR.objectAt a h.host).2⟩
  read loc h := ⟨(hR.load loc h.host).1, h.withHost (hR.load loc h.host).2⟩
  write w h := h.withHost (hR.storeAll [w] h.host)
  flush t h := h.flush hR t
  resolve t loc h := h.resolve hR t loc false
  forward t loc v h := h.forward t loc v
  push t _ value _ _ _ h := h.push hR t _
  pushFence t order h := h.pushFence t _
  discardRange only range h := h.discardRange only range

/-- Operations on hosts that answer alike answer alike, and leave machines that are the same but for
their hosts. `R` relates the hosts while the mask is raised, `R₀` before and `R₁` after. -/
theorem Like.perform {R₀ R₁ : σ → τ → Prop} (hR : Host.Calls R)
    (hstart : ∀ {g k}, R₀ g k → Host.thread g = Host.thread k ∧ Host.flags g = Host.flags k ∧
      R (Host.hold g).2 (Host.hold k).2)
    (hend : ∀ {g k g' k'}, R₀ g k → R g' k' →
      R₁ (Host.release (Host.flags g) g') (Host.release (Host.flags k) k'))
    (hidle : ∀ {g k}, R₀ g k → R₁ g k) (h : Like R₀ m m') (op : Op) :
    Both (Like R₁) (m.perform op) (m'.perform op) := by
  have hmasking : Masking (Like R₀) (Like R) (Like R₁) :=
    { lockstep hR with
      started := fun h => ⟨(hstart h.host).1, by unfold Machine.minOrder; rw [h.session]⟩
      noted := fun e h => h.noteOperation e
      dumped := fun {m m'} h => by
        have hreport : m.report = m'.report := by
          unfold Machine.report
          rw [h.session]
        rw [hreport]
        exact h.note _
      hold := fun h => ⟨(hstart h.host).2.1, h.withHost (hstart h.host).2.2⟩
      release := fun h hn => hn.withHost (hend h.host hn.host)
      idle := fun h => ⟨h.session, h.log, hidle h.host⟩ }
  obtain ⟨hanswer, hnext⟩ := hmasking.perform h op
  refine ⟨?_, hnext⟩
  by_cases hop : op = .dump
  -- the report is made of the session, which is the same
  · subst hop
    show Except.ok (Answer.text m.report) = .ok (.text m'.report)
    unfold Machine.report
    rw [h.session]
  · exact hanswer hop

end StoreBuffer.Machine
