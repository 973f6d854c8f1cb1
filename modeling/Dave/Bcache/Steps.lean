import Dave.Bcache.Invariant

/-!
# The steps of the buffer cache

Every step of a process keeps the invariant of the cache and concerns one buffer.
-/

namespace Dave.Bcache

open Function

/-! ### Lists -/

theorem sublist_of_find {α : Type*} {l : List α} {f : α → Bool} {a b : α}
    (hfind : l.find? f = some a) (hb : b ∈ l) (hfb : f b = true) (hne : b ≠ a) :
    List.Sublist [a, b] l := by
  obtain ⟨-, xs, ys, rfl, hxs⟩ := List.find?_eq_some_iff_append.mp hfind
  have hmem : b ∈ ys := by
    rcases List.mem_append.mp hb with hb | hb
    · simpa [hfb] using hxs b hb
    · exact (List.mem_cons.mp hb).resolve_left hne
  exact ((List.singleton_sublist.mpr hmem).cons_cons a).trans (List.sublist_append_right xs _)

theorem not_sublist_swap {α : Type*} {l : List α} {a b : α} (hl : l.Nodup)
    (h : List.Sublist [a, b] l) : ¬ List.Sublist [b, a] l := by
  induction l with
  | nil => cases h
  | cons x l ih =>
    obtain ⟨hx, hl⟩ := List.nodup_cons.mp hl
    intro h'
    cases h with
    | cons _ h =>
      cases h' with
      | cons _ h' => exact ih hl h h'
      | cons_cons _ h' => exact hx (h.subset (by simp))
    | cons_cons _ h =>
      cases h' with
      | cons _ h' | cons_cons _ h' => exact hx (h'.subset (by simp))

/-! ### The code -/

variable {P : Type} {s s' : State P} {p q : P} {i j : Fin nBuf}

@[simp] theorem wp_modifyBuf {E : Panic → Prop} (f : Buf P → Buf P) (Q : Unit → State P → Prop) :
    Wp E (modifyBuf i f) Q s ↔ Q () (s.setBuf i (f (s.buf i))) := .rfl

@[simp] theorem setBuf_setBuf (s : State P) (i : Fin nBuf) (a b : Buf P) :
    (s.setBuf i a).setBuf i b = s.setBuf i b := by
  simp [State.setBuf]

theorem exec_eq_some {c : C P Unit} : exec c s = some s' ↔ c s = .ok ((), s') := by
  unfold exec
  cases h : c s with
  | error e => simp
  | ok r => simp [Prod.ext_iff]

/-- The panics of `iderw` that depend on how it is called, not on which block it is called for. -/
def Panic.OfCaller (e : Panic) : Prop := e = .iderwNotLocked ∨ e = .iderwNothing

variable {Q : Unit → State P → Prop}

theorem wp_iderwCopy {w : Bool} (hout : w = true → Q () (({ s with
      disk := update s.disk (s.buf i).blockno (s.buf i).data } : State P).setBuf i
        { s.buf i with valid := true }))
    (hin : w = false → Q () (s.setBuf i
      { s.buf i with data := s.disk (s.buf i).blockno, valid := true })) :
    Wp (fun e => ¬ e.OfCaller) (iderwCopy i w) Q s := by
  simp only [iderwCopy, wp_bind, wp_get]
  split_ifs with hw
  · exact hout hw
  · simpa using hin (by simpa using hw)

theorem wp_logWrite
    (hQ : ∀ log, log.lh = Logging.absorb s.log.lh (s.buf i).blockno →
      Q () ((({ s with log := log } : State P).save i).setBuf i { s.buf i with dirty := true })) :
    Wp (fun e => ¬ e.OfCaller) (logWrite i) Q s := by
  simp only [logWrite, wp_bind, wp_get]
  by_cases hbig : s.log.lh.length ≥ logSize ∨ s.log.lh.length ≥ s.log.size - 1
  · rw [if_pos hbig]
    exact by simp [Panic.OfCaller]
  · rw [if_neg hbig]
    split_ifs
    · exact by simp [Panic.OfCaller]
    · exact hQ _ rfl

variable [DecidableEq P]

theorem wp_iderw {Q : Bool → State P → Prop} (hlock : (s.buf i).lock = some p)
    (htodo : (s.buf i).valid = true → (s.buf i).dirty = true)
    (hQ : (s.buf i).dev = disk1 → (s.buf i).blockno.toNat < s.disksize →
      Q (s.buf i).dirty (s.setBuf i { s.buf i with dirty := false })) :
    Wp (fun e => ¬ e.OfCaller) (iderw p i) Q s := by
  have htodo' : ¬ ((s.buf i).valid = true ∧ (s.buf i).dirty = false) := by
    rintro ⟨hvalid, hdirty⟩
    rw [htodo hvalid] at hdirty
    cases hdirty
  simp only [iderw, wp_bind, wp_get, hlock, htodo', ne_eq, not_true_eq_false, if_false]
  by_cases hdev : (s.buf i).dev = disk1
  · rw [if_neg (not_not.mpr hdev)]
    split_ifs with hrange
    · exact by simp [Panic.OfCaller]
    · exact hQ hdev (not_le.mp hrange)
  · rw [if_pos hdev]
    exact by simp [Panic.OfCaller]

theorem wp_bwrite {Q : Bool → State P → Prop} (hQ : (s.buf i).lock = some p →
      Q true ((s.save i).setBuf i { s.buf i with dirty := false })) :
    Wp (fun e => ¬ e.OfCaller) (bwrite p i) Q s := by
  simp only [bwrite, wp_bind, wp_get]
  split_ifs with hlock
  · exact by simp [Panic.OfCaller]
  · have hlock' : (s.buf i).lock = some p := not_not.mp hlock
    refine wp_iderw (by simpa using hlock') (by simp) fun _ _ => ?_
    simpa using hQ hlock'

theorem step_of_wp {e : P × Act} {Q : State P → Prop} (hs : step s e = some s')
    (hQ : ∀ c, code e.1 s (s.loc e.1) e.2 = some c →
      Wp (fun e => ¬ e.OfCaller) c (fun _ s' => Q s') s) : Q s' := by
  obtain ⟨c, hc, hexec⟩ := Option.bind_eq_some_iff.mp hs
  exact (hQ c hc).of_ok (exec_eq_some.mp hexec)

section Unsaved

omit [DecidableEq P]

variable [Fintype P]

theorem Inv.unsaved_of_unlocked (h : Inv s) (hlock : (s.buf i).lock = none) :
    s.unsaved i = false := by
  by_contra hu
  obtain ⟨q, hq, -⟩ := (h.buf i).unsaved (by simpa using hu)
  rw [hlock] at hq
  cases hq

theorem Inv.unsaved_of_works (h : Inv s) (hp : (s.loc p).works = some i) : s.unsaved i = false := by
  by_contra hu
  obtain ⟨q, hq, hne⟩ := (h.buf i).unsaved (by simpa using hu)
  obtain rfl : p = q := Option.some.inj ((h.locked p i hp).symm.trans hq)
  exact hne hp

end Unsaved

variable [Fintype P]

/-- A step of process `p` keeps the invariant and concerns one buffer. -/
def Good (p : P) (s s' : State P) : Prop := Inv s' ∧ ∃ i, At p i s s'

/-! ### Steps of `bread` -/

variable {r : Option (Word × Word)}

section

variable (h : Inv s)

include h

theorem good_acquiresleep (hp : s.loc p = .busy i r .acquire)
    (hlock : (s.buf i).lock = none) :
    Good p s ((s.setBuf i { s.buf i with lock := some p }).setLoc p (.busy i r .test)) := by
  have hok := h.buf i
  have ha : At p i s ((s.setBuf i { s.buf i with lock := some p }).setLoc p (.busy i r .test)) :=
    .of_update rfl rfl (fun _ _ => rfl) rfl (by simp [hp]) (by simp)
      (fun q hq => by simp [hlock, Ne.symm hq]) fun _ => rfl
  have hidle :
      ¬ ((s.setBuf i { s.buf i with lock := some p }).setLoc p (.busy i r .test)).Idle i := by
    simpa [State.Idle] using fun hz => absurd hz (h.pos_of_busy hp).ne'
  have hunsaved := h.unsaved_of_unlocked hlock
  refine ⟨h.at_used ha (h.not_idle_of_busy hp) hidle ?_ (.inl rfl) ?_ ?_ ?_ ?_ ?_ ?_
    (.inl rfl) ?_, i, ha⟩
  · simp [Buf.ident]
  · simp [hp, hlock, Loc.waits]
  · simp
  · intro r' st hb
    simp only [State.setLoc_loc, update_self, Loc.busy.injEq] at hb
    exact ⟨.acquire, by rw [hp, hb.2.1]⟩
  · simp
  · simp
  · refine .of_lock h ha ?_ ?_ ?_ ?_ ?_ ?_ ?_ hidle
    · simp
    · simpa using hok.valid_of_dirty
    · simpa using hok.on_disk
    · simp [Loc.works]
    · simp
    · simp [hunsaved]
    · simpa using hok.content
  · exact ha.pending rfl rfl (by simp) (by simp) (by simp [Buf.ident]) (by simp [hp])

theorem good_test (hp : s.loc p = .busy i r .test) (hvalid : (s.buf i).valid = true) :
    Good p s (s.setLoc p .run) := by
  have hok := h.buf i
  have hlock := h.locked p i (by rw [hp]; rfl)
  have ha : At p i s (s.setLoc p .run) :=
    .of_update (update_eq_self i s.buf).symm rfl (fun _ _ => rfl) rfl (by simp [hp])
      (by simp) (fun _ _ => .rfl) fun _ => rfl
  have hidle : ¬ (s.setLoc p .run).Idle i := by simp [State.Idle, hvalid]
  refine ⟨h.at_used ha (h.not_idle_of_busy hp) hidle rfl (.inl rfl) ?_ ?_ ?_ ?_ id ?_
    (.inl rfl) ?_, i, ha⟩
  · simp [hp, Loc.waits]
  · simp [Loc.works]
  · simp
  · simp
  · refine .of_lock h ha hlock hok.valid_of_dirty hok.on_disk (fun _ => hvalid) ?_ ?_ hok.content
      hidle
    · simp
    · simp [Loc.works]
  · exact ha.pending rfl rfl rfl rfl rfl (by simp [hp])

theorem good_iderw (hp : s.loc p = .busy i r .test) (hvalid : (s.buf i).valid = false)
    (hdev : (s.buf i).dev = disk1) (hrange : (s.buf i).blockno.toNat < s.disksize) :
    Good p s ((s.setBuf i { s.buf i with dirty := false }).setLoc p
      (.busy i r (.copy (s.buf i).dirty))) := by
  have hok := h.buf i
  have hlock := h.locked p i (by rw [hp]; rfl)
  have hdirty : (s.buf i).dirty = false := by
    by_contra hd
    rw [hok.valid_of_dirty (by simpa using hd)] at hvalid
    cases hvalid
  rw [hdirty]
  have ha : At p i s ((s.setBuf i { s.buf i with dirty := false }).setLoc p
      (.busy i r (.copy false))) :=
    .of_update rfl rfl (fun _ _ => rfl) rfl (by simp [hp]) (by simp) (fun _ _ => .rfl) fun _ => rfl
  have hidle : ¬ ((s.setBuf i { s.buf i with dirty := false }).setLoc p
      (.busy i r (.copy false))).Idle i := by
    simpa [State.Idle] using fun hz => absurd hz (h.pos_of_busy hp).ne'
  refine ⟨h.at_used ha (h.not_idle_of_busy hp) hidle ?_ (.inl rfl) ?_ ?_ ?_ ?_ ?_ ?_
    (.inl rfl) ?_, i, ha⟩
  · simp [Buf.ident]
  · simp [hp, Loc.waits]
  · intro _
    simpa using hlock
  · intro r' st hb
    simp only [State.setLoc_loc, update_self, Loc.busy.injEq] at hb
    exact ⟨.test, by rw [hp, hb.2.1]⟩
  · simp
  · simp
  · refine .of_lock h ha ?_ ?_ ?_ ?_ ?_ ?_ ?_ hidle
    · simpa using hlock
    · simp
    · simpa using hok.on_disk
    · simp [Loc.works]
    · intro r' w hb
      simp only [State.setLoc_loc, update_self, Loc.busy.injEq, Stage.copy.injEq, true_and] at hb
      simp [hdev, hrange, hvalid, ← hb.2]
    · simp [h.unsaved_of_works (p := p) (i := i) (by rw [hp]; rfl)]
    · simpa using hok.content
  · exact ha.pending rfl rfl (by simp) (by simp [hdirty]) (by simp [Buf.ident]) (by simp [hp])

theorem good_copyIn (hp : s.loc p = .busy i r (.copy false)) :
    Good p s ((s.setBuf i { s.buf i with data := s.disk (s.buf i).blockno, valid := true }).setLoc
      p .run) ∧ s.disk (s.buf i).blockno = s.stored (s.buf i).blockno := by
  have hok := h.buf i
  have hlock := h.locked p i (by rw [hp]; rfl)
  obtain ⟨hdev, hrange, hvalid, hdirty⟩ := hok.copying p r false hp
  have hused := h.not_idle_of_busy hp
  -- no other buffer is for this block, and this one has nothing to be written
  have hdisk : s.disk (s.buf i).blockno = s.stored (s.buf i).blockno := by
    refine (h.disk _).resolve_left ?_
    rintro ⟨j, hv, hb, -⟩
    have hji : j ≠ i := by
      rintro rfl
      rw [hvalid] at hv
      cases hv
    have hident : (s.buf j).ident = (s.buf i).ident := by
      rw [Buf.ident, Buf.ident, ((h.buf j).on_disk hv).1, hdev, hb]
    rcases h.unique j i hji hident with hi | hi
    · rw [hi.2] at hv
      cases hv
    · exact hused hi
  refine ⟨?_, hdisk⟩
  have ha : At p i s ((s.setBuf i { s.buf i with
      data := s.disk (s.buf i).blockno, valid := true }).setLoc p .run) :=
    .of_update rfl rfl (fun _ _ => rfl) rfl (by simp [hp]) (by simp) (fun _ _ => .rfl) fun _ => rfl
  have hidle : ¬ ((s.setBuf i { s.buf i with
      data := s.disk (s.buf i).blockno, valid := true }).setLoc p .run).Idle i := by
    simp [State.Idle]
  refine ⟨h.at_used ha hused hidle ?_ (.inl rfl) ?_ ?_ ?_ ?_ ?_ ?_ (.inl rfl) ?_, i, ha⟩
  · simp [Buf.ident]
  · simp [hp, Loc.waits]
  · simp [Loc.works]
  · simp
  · simp
  · simp
  · refine .of_lock h ha ?_ ?_ ?_ ?_ ?_ ?_ ?_ hidle
    · simpa using hlock
    · simp
    · simp [hdev, hrange]
    · simp
    · simp
    · simp [Loc.works]
    · simp [hdisk]
  · rintro b (⟨hv, -⟩ | heq)
    · rw [hvalid] at hv
      cases hv
    · exact .inr heq

/-! ### Steps of `bwrite`, `log_write` and `brelse` -/

theorem good_copyOut (hp : s.loc p = .busy i r (.copy true)) : Good p s ((({ s with
      disk := update s.disk (s.buf i).blockno (s.buf i).data } : State P).setBuf i
        { s.buf i with valid := true }).setLoc p .run) := by
  have hok := h.buf i
  have hlock := h.locked p i (by rw [hp]; rfl)
  obtain ⟨hdev, hrange, hvalid, hdirty⟩ := hok.copying p r true hp
  have hunsaved := h.unsaved_of_works (p := p) (i := i) (by rw [hp]; rfl)
  have ha : At p i s ((({ s with
      disk := update s.disk (s.buf i).blockno (s.buf i).data } : State P).setBuf i
        { s.buf i with valid := true }).setLoc p .run) :=
    .of_update rfl rfl (fun _ _ => rfl) rfl (by simp [hp]) (by simp) (fun _ _ => .rfl) fun _ => rfl
  have hidle : ¬ ((({ s with
      disk := update s.disk (s.buf i).blockno (s.buf i).data } : State P).setBuf i
        { s.buf i with valid := true }).setLoc p .run).Idle i := by simp [State.Idle]
  refine ⟨h.at_used ha (h.not_idle_of_busy hp) hidle ?_ (.inl rfl) ?_ ?_ ?_ ?_ ?_ ?_
    (.inl rfl) ?_, i, ha⟩
  · simp [Buf.ident]
  · simp [hp, Loc.waits]
  · simp [Loc.works]
  · simp
  · simp
  · simp
  · refine .of_lock h ha ?_ ?_ ?_ ?_ ?_ ?_ ?_ hidle
    · simpa using hlock
    · simp
    · simp [hdev, hrange]
    · simp
    · simp
    · simp [Loc.works]
    · simpa using hok.content hvalid
  · intro b hb
    right
    by_cases hblock : b = (s.buf i).blockno
    · subst hblock
      simpa using hok.content hvalid hunsaved
    · simpa [hblock] using hb.resolve_left fun hpend => hblock hpend.2.1.symm

theorem good_modify (hp : s.loc p = .run) (hlock : (s.buf i).lock = some p)
    (data : Block) :
    Good p s { s.setBuf i { s.buf i with data := data } with
      unsaved := update s.unsaved i true } := by
  have hok := h.buf i
  have hvalid := hok.held p hlock (by simp [hp, Loc.works])
  have ha : At p i s { s.setBuf i { s.buf i with data := data } with
      unsaved := update s.unsaved i true } :=
    .of_update rfl (update_eq_self p s.loc).symm
      (fun j hj => update_of_ne hj ..) rfl (by simp [hp]) (by simp [hp])
      (fun _ _ => .rfl) fun _ => rfl
  have hidle : ¬ ({ s.setBuf i { s.buf i with data := data } with
      unsaved := update s.unsaved i true } : State P).Idle i := by
    simp [State.Idle, hvalid]
  refine ⟨h.at_used ha (h.not_idle_of_lock hlock) hidle ?_ (.inl rfl) ?_ ?_ ?_ ?_ ?_ ?_
    (.inl rfl) ?_, i, ha⟩
  · simp [Buf.ident]
  · simp
  · simp [hp, Loc.works]
  · simp [hp]
  · simp [hp]
  · simp
  · refine .of_lock h ha ?_ ?_ ?_ ?_ ?_ ?_ ?_ hidle
    · simpa using hlock
    · simp [hvalid]
    · simpa using hok.on_disk
    · simp [hvalid]
    · simp [hp]
    · simp [hp, Loc.works]
    · simp
  · exact ha.pending rfl rfl (by simp) (by simp) (by simp [Buf.ident]) (by simp [hp])

theorem good_logWrite (hp : s.loc p = .run) (hlock : (s.buf i).lock = some p)
    (log : Logging.Log) :
    Good p s ((({ s with log := log } : State P).save i).setBuf i
      { s.buf i with dirty := true }) := by
  have hok := h.buf i
  have hvalid := hok.held p hlock (by simp [hp, Loc.works])
  have ha : At p i s ((({ s with log := log } : State P).save i).setBuf i
      { s.buf i with dirty := true }) :=
    .of_update rfl (update_eq_self p s.loc).symm
      (fun j hj => update_of_ne hj ..) rfl (by simp [hp]) (by simp [hp])
      (fun _ _ => .rfl) fun _ => rfl
  have hidle : ¬ ((({ s with log := log } : State P).save i).setBuf i
      { s.buf i with dirty := true }).Idle i := by simp [State.Idle, hvalid]
  refine ⟨h.at_used ha (h.not_idle_of_lock hlock) hidle ?_ (.inl rfl) ?_ ?_ ?_ ?_ ?_ ?_
    (.inr ⟨hvalid, fun b hb => by simp [hb]⟩) ?_, i, ha⟩
  · simp [Buf.ident]
  · simp
  · simp [hp, Loc.works]
  · simp [hp]
  · simp [hp]
  · simp
  · refine .of_lock h ha ?_ ?_ ?_ ?_ ?_ ?_ ?_ hidle
    · simpa using hlock
    · simp [hvalid]
    · simpa using hok.on_disk
    · simp [hvalid]
    · simp [hp]
    · simp
    · simp
  · intro b hb
    by_cases hblock : b = (s.buf i).blockno
    · exact .inl ⟨by simpa using hvalid, by simp [hblock], by simp⟩
    · right
      simpa [hblock] using hb.resolve_left fun hpend => hblock hpend.2.1.symm

theorem good_bwrite (hp : s.loc p = .run) (hlock : (s.buf i).lock = some p) :
    Good p s (((s.save i).setBuf i { s.buf i with dirty := false }).setLoc p
      (.busy i none (.copy true))) := by
  have hok := h.buf i
  have hvalid := hok.held p hlock (by simp [hp, Loc.works])
  have ha : At p i s (((s.save i).setBuf i { s.buf i with dirty := false }).setLoc p
      (.busy i none (.copy true))) :=
    .of_update rfl rfl (fun j hj => update_of_ne hj ..) rfl (by simp [hp]) (by simp)
      (fun _ _ => .rfl) fun _ => rfl
  have hidle : ¬ (((s.save i).setBuf i { s.buf i with dirty := false }).setLoc p
      (.busy i none (.copy true))).Idle i := by simp [State.Idle, hvalid]
  refine ⟨h.at_used ha (h.not_idle_of_lock hlock) hidle ?_ (.inl rfl) ?_ ?_ ?_ ?_ ?_ ?_
    (.inr ⟨hvalid, fun b hb => by simp [hb]⟩) ?_, i, ha⟩
  · simp [Buf.ident]
  · simp [hp, Loc.waits]
  · intro _
    simpa using hlock
  · simp
  · simp
  · simp
  · refine .of_lock h ha ?_ ?_ ?_ ?_ ?_ ?_ ?_ hidle
    · simpa using hlock
    · simp
    · simpa using hok.on_disk
    · simp [Loc.works]
    · intro r w hb
      simp only [State.setLoc_loc, update_self, Loc.busy.injEq, Stage.copy.injEq, true_and] at hb
      simpa [← hb.2, hvalid] using hok.on_disk hvalid
    · simp
    · simp
  · intro b hb
    by_cases hblock : b = (s.buf i).blockno
    · exact .inl ⟨by simpa using hvalid, by simp [hblock], .inr ⟨p, none, by simp⟩⟩
    · right
      simpa [hblock] using hb.resolve_left fun hpend => hblock hpend.2.1.symm

theorem good_brelse (hp : s.loc p = .run) (hlock : (s.buf i).lock = some p)
    (hsaved : s.unsaved i = false) :
    Good p s ((s.setBuf i { s.buf i with lock := none }).setLoc p (.busy i none .release)) := by
  have hok := h.buf i
  have hvalid := hok.held p hlock (by simp [hp, Loc.works])
  have ha : At p i s ((s.setBuf i { s.buf i with lock := none }).setLoc p
      (.busy i none .release)) :=
    .of_update rfl rfl (fun _ _ => rfl) rfl (by simp [hp]) (by simp)
      (fun q hq => by simp [hlock, Ne.symm hq]) fun _ => rfl
  have hidle : ¬ ((s.setBuf i { s.buf i with lock := none }).setLoc p
      (.busy i none .release)).Idle i := by simp [State.Idle, hvalid]
  refine ⟨h.at_used ha (h.not_idle_of_lock hlock) hidle ?_ (.inl rfl) ?_ ?_ ?_ ?_ ?_ ?_
    (.inl rfl) ?_, i, ha⟩
  · simp [Buf.ident]
  · simp [hp, hlock, Loc.waits]
  · simp [Loc.works]
  · simp
  · simp [hvalid]
  · simp
  · exact .of_same h ha (.inr ⟨by simp, hsaved⟩) (by simp) (by simp) (by simp [Buf.ident])
      (by simp) (by simp [hp, Loc.works]) (by simp [Loc.works]) rfl rfl hidle
  · exact ha.pending rfl rfl (by simp) (by simp) (by simp [Buf.ident]) (by simp [hp])

theorem good_drop (hp : s.loc p = .busy i r .release) {order : List (Fin nBuf)}
    (horder : order = s.order ∨ order = i :: s.order.erase i) :
    Good p s (({ s.setBuf i { s.buf i with refcnt := (s.buf i).refcnt - 1 } with
      order := order } : State P).setLoc p .run) := by
  have hvalid := (h.released p i r hp).1
  have hpos := h.pos_of_busy hp
  have ha : At p i s (({ s.setBuf i { s.buf i with refcnt := (s.buf i).refcnt - 1 } with
      order := order } : State P).setLoc p .run) :=
    .of_update rfl rfl (fun _ _ => rfl) rfl (by simp [hp]) (by simp) (fun _ _ => .rfl) fun _ => rfl
  have hidle : ¬ (({ s.setBuf i { s.buf i with refcnt := (s.buf i).refcnt - 1 } with
      order := order } : State P).setLoc p .run).Idle i := by simp [State.Idle, hvalid]
  refine ⟨h.at_used ha (h.not_idle_of_busy hp) hidle ?_ (horder.imp_right fun ho => ⟨hvalid, ho⟩)
    ?_ ?_ ?_ ?_ ?_ ?_ (.inl rfl) ?_, i, ha⟩
  · simp [Buf.ident]
  · simp [hp, Loc.waits]
    omega
  · simp [Loc.works]
  · simp
  · simp
  · simp
  · exact .of_same h ha (.inl (by simp)) (by simp) (by simp) (by simp [Buf.ident]) (by simp)
      (by simp [hp, Loc.works]) (by simp [Loc.works]) rfl rfl hidle
  · exact ha.pending rfl rfl (by simp) (by simp) (by simp [Buf.ident]) (by simp [hp])

/-! ### `bget` -/

theorem good_hit (hp : s.loc p = .run) {dev blockno : Word}
    (hfind : s.order.find? (fun i => (s.buf i).dev = dev ∧ (s.buf i).blockno = blockno) = some i) :
    Good p s ((s.setBuf i { s.buf i with refcnt := (s.buf i).refcnt + 1 }).setLoc p
      (.busy i (some (dev, blockno)) .acquire)) := by
  have hident : (s.buf i).ident = (dev, blockno) := by
    have := List.find?_some hfind
    simp only [decide_eq_true_eq] at this
    rw [Buf.ident, this.1, this.2]
  have hbefore (j : Fin nBuf) (hj : j ≠ i) (hjd : (s.buf j).ident = (dev, blockno)) :
      List.Sublist [i, j] s.order := by
    obtain ⟨hdev, hblockno⟩ := Prod.mk.inj hjd
    exact sublist_of_find hfind (h.mem_order j) (by simp [hdev, hblockno]) hj
  have ha : At p i s ((s.setBuf i { s.buf i with refcnt := (s.buf i).refcnt + 1 }).setLoc p
      (.busy i (some (dev, blockno)) .acquire)) :=
    .of_update rfl rfl (fun _ _ => rfl) rfl (by simp [hp]) (by simp) (fun _ _ => .rfl) fun _ => rfl
  have hidle : ¬ ((s.setBuf i { s.buf i with refcnt := (s.buf i).refcnt + 1 }).setLoc p
      (.busy i (some (dev, blockno)) .acquire)).Idle i := by simp [State.Idle]
  refine ⟨h.at ha (.inl rfl) ?_ ?_ ?_ ?_ ?_ ?_ (fun j hj heq => .inr ?_)
    (fun hi => absurd hi hidle) (fun _ heq j hj hjidle => ?_) (.inl rfl) ?_, i, ha⟩
  · simp [hp, Loc.waits]
    omega
  · simp [Loc.works]
  · intro r st hb
    simp only [State.setLoc_loc, update_self, Loc.busy.injEq, Option.some.injEq] at hb
    simpa [Buf.ident, ← hb.2.1] using hident
  · simp
  · simp
  · exact .of_same h ha (.inl (by simp)) (by simp) (by simp) (by simp [Buf.ident]) (by simp)
      (by simp [hp, Loc.works]) (by simp [Loc.works]) rfl rfl hidle
  · -- another buffer in use for the block would come before this one
    have hjd : (s.buf j).ident = (dev, blockno) := by
      rw [← hident, ← heq]
      simp [Buf.ident]
    by_contra hnj
    have hi := (h.unique i j (Ne.symm hj) (hident.trans hjd.symm)).resolve_right hnj
    have hzero := (h.buf i).fresh hi
    refine not_sublist_swap h.nodup (hbefore j hj hjd) (h.first j i hnj hi ?_)
    rw [hjd, ← hident, hzero]
  · refine hbefore j hj ?_
    rw [(h.buf j).fresh hjidle, ← heq, ← hident]
    simp [Buf.ident]
  · exact ha.pending rfl rfl (by simp) (by simp) (by simp [Buf.ident]) (by simp [hp])

theorem good_recycle (hp : s.loc p = .run) {dev blockno : Word}
    (hnone : s.order.find? (fun i => (s.buf i).dev = dev ∧ (s.buf i).blockno = blockno) = none)
    (hrefcnt : (s.buf i).refcnt = 0) (hdirty : (s.buf i).dirty = false) :
    Good p s ((s.setBuf i { s.buf i with
      dev := dev, blockno := blockno, valid := false, dirty := false, refcnt := 1 }).setLoc p
        (.busy i (some (dev, blockno)) .acquire)) := by
  have hother (j : Fin nBuf) : (s.buf j).ident ≠ (dev, blockno) := by
    intro hj
    obtain ⟨hdev, hblockno⟩ := Prod.mk.inj hj
    have := List.find?_eq_none.mp hnone j (h.mem_order j)
    simp [hdev, hblockno] at this
  have hlock : (s.buf i).lock = none := by
    by_contra hl
    obtain ⟨q, hq⟩ := Option.ne_none_iff_exists'.mp hl
    exact (h.pos_of_lock hq).ne' hrefcnt
  have hunsaved := h.unsaved_of_unlocked hlock
  have hbusy (q : P) (r : Option (Word × Word)) (st : Stage) : s.loc q ≠ .busy i r st :=
    fun hb => (h.pos_of_busy hb).ne' hrefcnt
  have ha : At p i s ((s.setBuf i { s.buf i with
      dev := dev, blockno := blockno, valid := false, dirty := false, refcnt := 1 }).setLoc p
        (.busy i (some (dev, blockno)) .acquire)) :=
    .of_update rfl rfl (fun _ _ => rfl) rfl (by simp [hp]) (by simp) (fun _ _ => .rfl)
      (by simp [hdirty, hrefcnt])
  have hidle : ¬ ((s.setBuf i { s.buf i with
      dev := dev, blockno := blockno, valid := false, dirty := false, refcnt := 1 }).setLoc p
        (.busy i (some (dev, blockno)) .acquire)).Idle i := by simp [State.Idle]
  refine ⟨h.at ha (.inl rfl) ?_ ?_ ?_ ?_ ?_ ?_ (fun j hj heq => ?_)
    (fun hi => absurd hi hidle) (fun _ heq j hj hjidle => ?_) (.inl rfl) ?_, i, ha⟩
  · simp [hp, hlock, hrefcnt, Loc.waits]
  · simp [Loc.works]
  · intro r st hb
    simp only [State.setLoc_loc, update_self, Loc.busy.injEq, Option.some.injEq] at hb
    simp [Buf.ident, ← hb.2.1]
  · simp
  · simp [hrefcnt]
  · refine ⟨?_, ?_, ?_, ?_, ?_, ?_, fun hi => absurd hi hidle⟩
    · simp
    · simp
    · simp [hlock]
    · intro q r w hb
      have hq : q ≠ p := by
        rintro rfl
        simp at hb
      exact absurd (ha.loc q hq ▸ hb) (hbusy q r _)
    · simp [hunsaved]
    · simp
  · exact absurd (by simpa [Buf.ident] using heq.symm) (hother j)
  · exact absurd (((h.buf j).fresh hjidle).trans (by simpa [Buf.ident] using heq.symm)) (hother j)
  · rintro b (⟨-, -, hd | ⟨q, r, hb⟩⟩ | heq)
    · rw [hdirty] at hd
      cases hd
    · exact absurd hb (hbusy q r _)
    · exact .inr heq

/-! ### Every step -/

theorem good_setLog (hp : s.loc p = .run) (log : Logging.Log) :
    Good p s { s with log := log } := by
  have ha : At p 0 s { s with log := log } :=
    .of_update (update_eq_self 0 s.buf).symm (update_eq_self p s.loc).symm
      (fun _ _ => rfl) rfl (by simp [hp]) (by simp [hp]) (fun _ _ => .rfl) fun _ => rfl
  exact ⟨⟨h.nodup, h.mem_order, h.refcnt, h.locked, h.named, h.released,
    fun i => ⟨(h.buf i).valid_of_dirty, (h.buf i).on_disk, (h.buf i).held, (h.buf i).copying,
      (h.buf i).unsaved, (h.buf i).content, (h.buf i).fresh⟩, h.unique, h.first, h.disk⟩, 0, ha⟩

theorem good_code {a : Act} {c : C P Unit} (hc : code p s (s.loc p) a = some c) :
    Wp (fun e => ¬ e.OfCaller) c (fun _ s' => Good p s s') s := by
  generalize hp : s.loc p = l at hc
  unfold code at hc
  split at hc
  · -- `bread`
    next dev blockno =>
    cases hc
    simp only [bget, wp_bind, wp_get]
    split
    · next i hfind =>
      exact good_hit h hp hfind
    · next hnone =>
      split
      · next i hfind =>
        have hi := List.find?_some hfind
        simp only [decide_eq_true_eq] at hi
        exact good_recycle h hp hnone hi.1 hi.2
      · exact by simp [Panic.OfCaller]
  · split_ifs at hc with hlock
    cases hc
    exact good_acquiresleep h hp hlock
  · next i req =>
    split_ifs at hc with hvalid
    · cases hc
      exact good_test h hp hvalid
    · cases hc
      rw [wp_bind]
      exact wp_iderw (h.locked p i (by rw [hp]; rfl)) (fun hv => absurd hv hvalid)
        fun hdev hrange => good_iderw h hp (by simpa using hvalid) hdev hrange
  · next i r w =>
    cases hc
    rw [wp_bind]
    refine wp_iderwCopy (fun hw => ?_) fun hw => ?_
    · subst hw
      exact good_copyOut h hp
    · subst hw
      exact (good_copyIn h hp).1
  · split_ifs at hc with hlock
    cases hc
    exact good_modify h hp hlock _
  · split_ifs at hc with hlock
    cases hc
    exact wp_logWrite fun log _ => good_logWrite h hp hlock log
  · next i =>
    cases hc
    rw [wp_bind]
    refine wp_bwrite fun hlock => ?_
    exact good_bwrite h hp hlock
  · next i =>
    split_ifs at hc with hsaved
    cases hc
    simp only [brelse, wp_bind, wp_get]
    split_ifs with hlock
    · exact by simp [Panic.OfCaller]
    · exact good_brelse h hp (by simpa using hlock) hsaved
  · next i r =>
    cases hc
    simp only [brelseDrop, wp_bind, wp_modifyBuf, wp_get]
    split_ifs
    · exact good_drop h hp (.inr rfl)
    · exact good_drop h hp (.inl rfl)
  · cases hc
    exact good_setLog h hp _
  · cases hc

theorem Good.of_step {e : P × Act} (hs : step s e = some s') : Good e.1 s s' :=
  step_of_wp hs fun _ hc => good_code h hc

theorem Inv.run {es : List (P × Act)} (hrun : Runs s es s') : Inv s' :=
  hrun.invariant h fun h _ hs => (Good.of_step h hs).1

end

omit [DecidableEq P] in
theorem init_inv (disk : Word → Block) (disksize : ℕ) (log : Logging.Log) :
    Inv (init disk disksize log : State P) where
  nodup := List.nodup_reverse.mpr (List.nodup_finRange _)
  mem_order i := List.mem_reverse.mpr (List.mem_finRange i)
  refcnt i := by simp [init, Loc.waits]
  locked p i := by simp [init, Loc.works]
  named p i r st := by simp [init]
  released p i r := by simp [init]
  buf i :=
    { valid_of_dirty := by simp [init]
      on_disk := by simp [init]
      held := by simp [init]
      copying := by simp [init]
      unsaved := by simp [init]
      content := by simp [init]
      fresh := fun _ => rfl }
  unique i j _ _ := .inl ⟨rfl, rfl⟩
  first i j hi := absurd ⟨rfl, rfl⟩ hi
  disk b := .inr rfl

end Dave.Bcache
