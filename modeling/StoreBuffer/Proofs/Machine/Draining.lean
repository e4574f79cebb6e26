import StoreBuffer.Proofs.Buffer.Forwarding
import StoreBuffer.Proofs.Host.Image
import StoreBuffer.Proofs.Machine.Departures
import StoreBuffer.Proofs.Reference.Machine

/-! # Draining on the reference machine

`Machine.tso` forgets all but memory and pending writes. A flush, a partial flush and the departure
of an oldest line are releases of the reference machine. Resolving visibility and evicting are made
of these three, so of drains: `Machine.Reaches` collects what holds of them. -/

namespace StoreBuffer.Machine

open Visibility

/-- The machine as the reference machine sees it. -/
def tso (m : Machine Scripted) : Tso := ⟨m.host.image, m.table.pending⟩

/-- A thread has one slot, and what is pending lies in the arena. -/
structure Sound (m : Machine Scripted) : Prop where
  owners : m.table.owners.Nodup
  fits : m.host.Fits
  accepted : ∀ t, ∀ w ∈ m.table.pending t, m.host.Accepts w

/-- Drains lead from `m` to `m'`, and nothing else has changed. -/
structure Reaches (m m' : Machine Scripted) : Prop where
  sound : m'.Sound
  drains : Tso.Drains m.tso m'.tso
  config : m'.config = m.config
  still : m'.host.still = m.host.still

theorem sound_create (c : Config) {h : Scripted} (hfit : h.Fits) : (create c h).Sound := by
  refine ⟨List.nodup_nil, hfit, ?_⟩
  intro t w hw
  simp [create, Table.pending, Table.linesOf, Table.buffer?] at hw

theorem tso_create (c : Config) (h : Scripted) : (create c h).tso = Tso.start h.image := rfl

theorem Sound.placed {m : Machine Scripted} (h : m.Sound) (t : ThreadId) :
    ∀ w ∈ m.table.pending t, w.Placed :=
  fun w hw => (h.accepted t w hw).placed h.fits

/-- Fewer pending writes on a host with as much memory. -/
theorem Sound.of_subset {m m' : Machine Scripted} (h : m.Sound) (howners : m'.table.owners.Nodup)
    (hsize : m'.host.arena.size = m.host.arena.size)
    (hsub : ∀ t, ∀ w ∈ m'.table.pending t, w ∈ m.table.pending t) : m'.Sound := by
  refine ⟨howners, (Scripted.fits_congr hsize).mpr h.fits, ?_⟩
  intro t w hw
  exact (h.accepted t w (hsub t w hw)).congr hsize

theorem tso_congr {m m' : Machine Scripted} (htable : m'.table = m.table) (harena : m'.host.arena = m.host.arena) :
    m'.tso = m.tso := by
  unfold tso Scripted.image
  rw [htable, harena]

theorem Sound.congr {m m' : Machine Scripted} (h : m.Sound) (htable : m'.table = m.table)
    (harena : m'.host.arena = m.host.arena) : m'.Sound := by
  refine h.of_subset ?_ (congrArg Arena.size harena) ?_
  · rw [htable]
    exact h.owners
  · intro t w hw
    rwa [htable] at hw

theorem Reaches.refl {m : Machine Scripted} (h : m.Sound) : m.Reaches m := ⟨h, .refl, rfl, rfl⟩

theorem Reaches.trans {m m' m'' : Machine Scripted} (h : m.Reaches m') (h' : m'.Reaches m'') :
    m.Reaches m'' :=
  ⟨h'.sound, h.drains.trans h'.drains, h'.config.trans h.config, h'.still.trans h.still⟩

theorem Reaches.of_drains {m m' : Machine Scripted} (h : m.Sound)
    (howners : m'.table.owners.Nodup) (hdrains : Tso.Drains m.tso m'.tso)
    (hconfig : m'.config = m.config) (hstill : m'.host.still = m.host.still) : m.Reaches m' :=
  ⟨h.of_subset howners (Scripted.size_of_still hstill) fun _ _ hw => Tso.mem_queue_of_drains hdrains hw,
    hdrains, hconfig, hstill⟩

/-- The writes at the front of a thread's queue have reached memory. -/
theorem tso_eq_release {m m' : Machine Scripted} (h : m.Sound) {t : ThreadId} {ws rest : List Write}
    (hsplit : m.table.pending t = ws ++ rest) (hhost : m'.host = Memory.storeAll ws m.host)
    (htable : ∀ u, m'.table.pending u = if u = t then rest else m.table.pending u) :
    m'.tso = m.tso.release t ws.length := by
  have hmem : ∀ w ∈ ws, m.host.Accepts w := fun w hw =>
    h.accepted t w (hsplit ▸ List.mem_append_left _ hw)
  apply Tso.ext
  · show m'.host.image = m.host.image.overlay ((m.table.pending t).take ws.length)
    rw [hhost, Scripted.image_storeAll hmem, hsplit, List.take_left]
  · intro u
    show m'.table.pending u = _
    rw [htable]
    by_cases hu : u = t
    · subst hu
      rw [if_pos rfl, Tso.release_queue_self]
      show rest = (m.table.pending u).drop ws.length
      rw [hsplit, List.drop_left]
    · rw [if_neg hu, Tso.release_queue_of_ne _ hu]
      rfl

/-! ## Flushing -/

theorem owners_flush {m : Machine Scripted} (h : m.table.owners.Nodup) (t : ThreadId) :
    (m.flush t).table.owners.Nodup := (sheds_flush h t).owners h

theorem pending_flush {m : Machine Scripted} (h : m.table.owners.Nodup) (t u : ThreadId) :
    (m.flush t).table.pending u = if u = t then [] else m.table.pending u := by
  unfold flush
  cases hb : m.table.buffer? t with
  | none =>
    by_cases hu : u = t
    · subst hu
      rw [if_pos rfl]
      exact Table.pending_of_no_buffer hb
    · rw [if_neg hu]
  | some b =>
    dsimp only
    rw [Table.pending_prune (by rwa [Table.owners_retire, Table.owners_modify]),
      Table.pending_retire, Table.pending_modify]
    by_cases hu : u = t
    · subst hu
      rw [if_pos rfl, if_pos rfl, hb]
      rfl
    · rw [if_neg hu, if_neg hu]

theorem host_flush (m : Machine Scripted) (t : ThreadId) :
    (m.flush t).host = Memory.storeAll (m.table.pending t) m.host := by
  unfold flush
  cases hb : m.table.buffer? t with
  | none =>
    rw [Table.pending_of_no_buffer hb]
    rfl
  | some b =>
    rw [Table.pending_of_buffer? hb]
    rfl

theorem tso_flush {m : Machine Scripted} (h : m.Sound) (t : ThreadId) :
    (m.flush t).tso = m.tso.settle t := by
  rw [Tso.settle_eq_release]
  exact tso_eq_release h (List.append_nil _).symm (host_flush m t) (pending_flush h.owners t)

theorem reaches_flush {m : Machine Scripted} (h : m.Sound) (t : ThreadId) :
    m.Reaches (m.flush t) := by
  refine .of_drains h (owners_flush h.owners t) ?_ (sheds_flush h.owners t).config ?_
  · rw [tso_flush h]
    exact Tso.drains_settle ..
  · rw [host_flush]
    exact Scripted.still_storeAll ..

/-! ## Partial flushing -/

/-- How many pending writes stand in the first lines of a thread. -/
def pendingBefore (m : Machine Scripted) (t : ThreadId) (n : Nat) : Nat :=
  (((m.table.linesOf t).take n).filterMap Line.pendingWrite?).length

theorem owners_flushPart {m : Machine Scripted} (h : m.table.owners.Nodup) (t : ThreadId)
    (upTo : Nat) (loc : Location) : (m.flushPart t upTo loc).table.owners.Nodup :=
  (sheds_flushPart h t upTo loc).owners h

/-- A partial flush writes what is pending up to its position. -/
theorem tso_flushPart {m : Machine Scripted} (h : m.Sound) (t : ThreadId) (upTo : Nat)
    (loc : Location) : (m.flushPart t upTo loc).tso =
      m.tso.release t (m.pendingBefore t (upTo + 1)) := by
  unfold flushPart pendingBefore Table.linesOf
  cases hb : m.table.buffer? t with
  | none => simp [Tso.release_zero]
  | some b =>
    have hsplit : m.table.pending t = (b.drain (upTo + 1) loc.region).writes ++
        (b.drain (upTo + 1) loc.region).kept.pending := by
      rw [Table.pending_of_buffer? hb, Buffer.pending_drain]
    refine tso_eq_release h hsplit rfl ?_
    intro u
    dsimp only
    rw [Table.pending_retire, Table.pending_modify]
    by_cases hu : u = t
    · subst hu
      rw [if_pos rfl, if_pos rfl, hb]
      rfl
    · rw [if_neg hu, if_neg hu]

theorem reaches_flushPart {m : Machine Scripted} (h : m.Sound) (t : ThreadId) (upTo : Nat)
    (loc : Location) : m.Reaches (m.flushPart t upTo loc) := by
  refine .of_drains h (owners_flushPart h.owners ..) ?_ (sheds_flushPart h.owners ..).config ?_
  · rw [tso_flushPart h]
    exact Tso.drains_release ..
  · unfold flushPart
    split
    · rfl
    · exact Scripted.still_storeAll ..

theorem reaches_drainPick {m : Machine Scripted} (h : m.Sound) (loc : Location) (p : Pick) :
    m.Reaches (m.drainPick loc p) := by
  unfold drainPick
  split
  · exact reaches_flushPart h ..
  · exact .refl h

theorem reaches_prune {m : Machine Scripted} (h : m.Sound) :
    m.Reaches (m.withTable m.table.prune) := by
  have htso : (m.withTable m.table.prune).tso = m.tso :=
    Tso.ext rfl fun u => Table.pending_prune h.owners u
  refine .of_drains h (Table.nodup_owners_prune h.owners) ?_ rfl rfl
  rw [htso]

theorem reaches_drainPicks {m : Machine Scripted} (h : m.Sound) (loc : Location)
    (ps : List Pick) : m.Reaches (m.drainPicks loc ps) := by
  have hfold : m.Reaches (ps.foldl (drainPick loc) m) := by
    induction ps generalizing m with
    | nil => exact .refl h
    | cons p rest ih =>
      have hp := reaches_drainPick h loc p
      exact hp.trans (ih hp.sound)
  exact hfold.trans (reaches_prune hfold.sound)

theorem reaches_chooseDrain {m : Machine Scripted} (h : m.Sound) (reader : ThreadId)
    (loc : Location) (cs : List Candidate) : m.Reaches (m.chooseDrain reader loc cs).2 :=
  .of_drains h h.owners .refl rfl rfl

theorem reaches_chooseSource {m : Machine Scripted} (h : m.Sound) (reader : ThreadId)
    (loc : Location) (ps : List Pick) : m.Reaches (m.chooseSource reader loc ps).2 := by
  -- a choice is recorded and does nothing else
  have hchoice : m.Reaches (m.withHost
      (if 1 < ps.length then Host.choose ps.length m.host else (0, m.host)).2) := by
    split
    · exact .of_drains h h.owners .refl rfl rfl
    · exact .refl h
  refine hchoice.trans ?_
  unfold chooseSource
  dsimp only
  cases ps[(if 1 < ps.length then Host.choose ps.length m.host else (0, m.host)).1]? with
  | none => exact .refl hchoice.sound
  | some p => exact .of_drains hchoice.sound hchoice.sound.owners .refl rfl rfl

/-- Resolving visibility drains some buffers in part, whatever the host chooses. -/
theorem reaches_resolve {m : Machine Scripted} (h : m.Sound) (reader : ThreadId) (loc : Location)
    (own : Bool) : m.Reaches (m.resolve reader loc own) := by
  unfold resolve
  dsimp only
  split
  · exact .refl h
  · have hdrain := reaches_chooseDrain h reader loc (m.table.candidates reader own loc.region)
    split
    · exact hdrain
    · refine hdrain.trans ?_
      generalize (m.chooseDrain reader loc _).2 = m₁ at hdrain ⊢
      generalize picks _ _ = ps
      have hsource := reaches_chooseSource hdrain.sound reader loc ps
      exact hsource.trans (reaches_drainPicks hsource.sound ..)

/-- A buffered fence keeps what is pending. -/
theorem reaches_pushFence {m : Machine Scripted} (h : m.Sound) (t : ThreadId) (r : Order) :
    m.Reaches (m.pushFence t (.fence r)).2 := by
  have hmodify {f : Buffer → Buffer} (hf : ∀ b, (f b).pending = b.pending) :
      m.Reaches (m.withTable (m.table.modify t f)) := by
    have htso : (m.withTable (m.table.modify t f)).tso = m.tso := by
      apply Tso.ext
      · rfl
      · intro u
        show (m.table.modify t f).pending u = m.table.pending u
        rw [Table.pending_modify]
        split
        · rename_i hu
          subst hu
          cases hb : m.table.buffer? u with
          | none => rw [Table.pending_of_no_buffer hb, Option.map_none, Option.getD_none]
          | some b => rw [Table.pending_of_buffer? hb, Option.map_some, Option.getD_some, hf]
        · rfl
    refine .of_drains h ?_ ?_ rfl rfl
    · show (m.table.modify t f).owners.Nodup
      rw [Table.owners_modify]
      exact h.owners
    · rw [htso]
  unfold pushFence
  split
  · exact .refl h
  · split
    · exact hmodify fun b => Buffer.pending_modify b _ fun _ => rfl
    · have hpush := hmodify (f := (·.push (.fence r))) fun b => by
        rw [Buffer.pending_push]
        exact List.append_nil _
      exact hpush.trans (.of_drains hpush.sound hpush.sound.owners .refl rfl rfl)

/-! ## Evicting -/

theorem pending_erase_zero (b : Buffer) :
    (b.erase 0).1.toList.filterMap Line.pendingWrite? ++ (b.erase 0).2.pending = b.pending := by
  unfold Buffer.erase Buffer.pending
  cases b.lines with
  | nil => rfl
  | cons l rest => cases h : l.pendingWrite? <;> simp [h]

/-- The oldest line that is dropped writes what it still has pending. -/
theorem tso_dropOldest {m : Machine Scripted} (h : m.Sound) (t : ThreadId) :
    (m.dropOldest t).tso = m.tso.release t (m.pendingBefore t 1) := by
  unfold dropOldest pendingBefore Table.linesOf
  cases hb : m.table.buffer? t with
  | none => simp [Tso.release_zero]
  | some b =>
    have htake : b.lines.take 1 = (b.erase 0).1.toList := by
      unfold Buffer.erase
      cases b.lines <;> rfl
    have hsplit : m.table.pending t =
        (b.erase 0).1.toList.filterMap Line.pendingWrite? ++ (b.erase 0).2.pending := by
      rw [Table.pending_of_buffer? hb, pending_erase_zero]
    dsimp only [Option.map_some, Option.getD_some]
    rw [htake]
    refine tso_eq_release h hsplit rfl ?_
    intro u
    dsimp only
    rw [Table.pending_retire, Table.pending_modify]
    by_cases hu : u = t
    · subst hu
      rw [if_pos rfl, if_pos rfl, hb]
      exact Buffer.pending_dropLeadingFences _
    · rw [if_neg hu, if_neg hu]

theorem reaches_dropOldest {m : Machine Scripted} (h : m.Sound) (t : ThreadId) :
    m.Reaches (m.dropOldest t) := by
  have hsheds := sheds_dropOldest h.owners t
  refine .of_drains h (hsheds.owners h.owners) ?_ hsheds.config ?_
  · rw [tso_dropOldest h]
    exact Tso.drains_release ..
  · unfold dropOldest
    split
    · rfl
    · exact Scripted.still_storeAll ..

theorem reaches_evictOldest {m : Machine Scripted} (h : m.Sound) (t : ThreadId) (l : Line) :
    m.Reaches (m.evictOldest t l) := by
  unfold evictOldest
  split
  · rename_i w _
    have hresolve := reaches_resolve h t w.loc false
    exact hresolve.trans (reaches_dropOldest hresolve.sound t)
  · exact reaches_dropOldest h t

theorem reaches_evictWhileOverdue {m : Machine Scripted} (h : m.Sound) (t : ThreadId) (n : Nat) :
    m.Reaches (m.evictWhileOverdue t n) := by
  induction n generalizing m with
  | zero => exact .refl h
  | succ n ih =>
    unfold evictWhileOverdue
    split
    · exact .refl h
    · rename_i l _
      have hone := reaches_evictOldest h t l
      exact hone.trans (ih hone.sound)

theorem reaches_evictExcess {m : Machine Scripted} (h : m.Sound) (t : ThreadId) :
    m.Reaches (m.evictExcess t) := reaches_evictWhileOverdue h ..

end StoreBuffer.Machine
