import Dave.Fs.Blocks

/-!
# The contents of an inode

What `bmap`, `readi` and `writei` do to the file whose inode they are given: the blocks it has and
what they hold. While they run, the in-memory inode may be ahead of the one on the disk, so their
specifications speak of the view focused on the inode.
-/

namespace Dave.Fs

open Nat Function

variable {P : Type} {E : Panic → Prop} {s s' s'' : State P} {ip : Slot}

/-! ### The log -/

/-- The blocks that have been passed to `log_write`, the latest first. -/
def State.logged (s : State P) : List ℕ :=
  s.trace.filterMap fun a => match a with
    | .logWrite b => some b
    | _ => none

/-- The calls of `begin_op` (`true`) and `end_op` (`false`), the latest first. -/
def State.ops (s : State P) : List Bool :=
  s.trace.filterMap fun a => match a with
    | .beginOp => some true
    | .endOp => some false
    | _ => none

/-- The blocks that have been logged since the state `s` lie in `S`. -/
def Logs (S : Set ℕ) (s s' : State P) : Prop :=
  ∃ new, s'.logged = new ++ s.logged ∧ ∀ b ∈ new, b ∈ S

namespace Logs

variable {S T : Set ℕ}

theorem of_eq (h : s'.logged = s.logged) : Logs S s s' := ⟨[], h, fun _ hb => by simp at hb⟩

theorem refl (s : State P) : Logs S s s := .of_eq rfl

theorem trans (h : Logs S s s') (h' : Logs S s' s'') : Logs S s s'' := by
  obtain ⟨new, hnew, hmem⟩ := h
  obtain ⟨new', hnew', hmem'⟩ := h'
  refine ⟨new' ++ new, by rw [hnew', hnew, List.append_assoc], fun b hb => ?_⟩
  exact (List.mem_append.mp hb).elim (hmem' b) (hmem b)

theorem mono (h : Logs S s s') (hS : S ⊆ T) : Logs T s s' := by
  obtain ⟨new, hnew, hmem⟩ := h
  exact ⟨new, hnew, fun b hb => hS (hmem b hb)⟩

theorem logWrite {b : ℕ} (hb : b ∈ S) (s : State P) (x : Block) :
    Logs S s ((s.setBlock b x).record (.logWrite b)) :=
  ⟨[b], rfl, fun _ hc => List.mem_singleton.mp hc ▸ hb⟩

end Logs

/-- The blocks of the free map. -/
def Superblock.bitmap (sb : Superblock) : Set ℕ := { b | ∃ c < sb.size, b = sb.bblock c }

/-! ### What a step leaves alone -/

/-- A step that changes the disk only. -/
structure SameMem (s s' : State P) : Prop where
  sb : s'.sb = s.sb
  ftable : s'.ftable = s.ftable
  proc : s'.proc = s.proc
  icache : s'.icache = s.icache

theorem SameMem.trans (h : SameMem s s') (h' : SameMem s' s'') : SameMem s s'' :=
  ⟨h'.sb.trans h.sb, h'.ftable.trans h.ftable, h'.proc.trans h.proc, h'.icache.trans h.icache⟩

/-- A step that changes the disk and the fields of one in-memory inode that live on disk. -/
structure Touch (ip : Slot) (s s' : State P) : Prop where
  sb : s'.sb = s.sb
  ftable : s'.ftable = s.ftable
  proc : s'.proc = s.proc
  icache : s'.icache = update s.icache ip { s.icache ip with d := (s'.icache ip).d }

namespace Touch

theorem refl (ip : Slot) (s : State P) : Touch ip s s :=
  ⟨rfl, rfl, rfl, (update_eq_self ip s.icache).symm⟩

theorem of_sameMem (h : SameMem s s') : Touch ip s s' :=
  ⟨h.sb, h.ftable, h.proc, by
    rw [h.icache]
    exact (update_eq_self ip s.icache).symm⟩

section

variable (h : Touch ip s s')

include h

theorem self : s'.icache ip = { s.icache ip with d := (s'.icache ip).d } := by
  have := congrFun h.icache ip
  rwa [update_self] at this

theorem inum : (s'.icache ip).inum = (s.icache ip).inum := by
  rw [h.self]

theorem of_ne {l : Slot} (hl : l ≠ ip) : s'.icache l = s.icache l := by
  have := congrFun h.icache l
  rwa [update_of_ne hl] at this

theorem trans (h' : Touch ip s' s'') : Touch ip s s'' where
  sb := h'.sb.trans h.sb
  ftable := h'.ftable.trans h.ftable
  proc := h'.proc.trans h.proc
  icache := by
    rw [h'.icache, update_self, h.self]
    rw [h.icache, update_idem, update_self]

theorem num (l : Slot) : (s'.icache l).inum = (s.icache l).inum := by
  by_cases hl : l = ip
  · rw [hl, h.inum]
  · rw [h.of_ne hl]

end

theorem setInode (s : State P) (ip : Slot) (d : Dinode) :
    Touch ip s (s.setInode ip { s.icache ip with d := d }) where
  sb := rfl
  ftable := rfl
  proc := rfl
  icache := by
    simp only [State.setInode, update_self]

end Touch

theorem SameMem.focus (h : SameMem s s') (ip : Slot) :
    s'.focus ip = s'.view.setDino (s.icache ip).inum (s.icache ip).d := by
  rw [State.focus, h.icache]

theorem focus_setInode (s : State P) (ip : Slot) (d : Dinode) :
    (s.setInode ip { s.icache ip with d := d }).focus ip =
      (s.focus ip).setDino (s.icache ip).inum d := by
  rw [State.focus, view_setInode, State.setInode_icache, update_self]
  simp only [State.focus, View.setDino, update_idem]

/-! ### Allocating a block -/

/-- `balloc` returns a block that was free, full of zeros. -/
theorem balloc_spec (hsb : s.sb.Ordered) (hlow : ∀ b < s.sb.datastart, s.view.used b = true)
    (hE : s.view.free s.sb = 0 → E .outOfBlocks) :
    Wp E balloc (fun b s' => SameMem s s' ∧ b ∈ s.sb.pool ∧ s.view.used b = false ∧
      s'.view = (s.view.setUsed b true).setData b 0) s := by
  simp only [balloc, wp_bind, wp_modify, wp_get]
  split
  · rename_i b hfind
    have hb := List.find?_some hfind
    have hlt : b < s.sb.size := List.mem_range.mp (List.mem_of_find?_eq_some hfind)
    have hbit : s.bit b = false := by simpa using hb
    have hused : s.view.used b = false := by rw [view_used hlt, hbit]
    have hdata : s.sb.IsData b := by
      refine ⟨Nat.not_lt.mp fun h => ?_, hlt⟩
      rw [hlow b h] at hused
      cases hused
    simp only [logWrite, bzero, wp_bind, wp_modify, wp_pure]
    refine ⟨⟨rfl, rfl, rfl, rfl⟩, Superblock.mem_pool.mpr hdata, hused, ?_⟩
    rw [view_record, view_setData (by exact hsb) (by exact hdata), view_record]
    exact congrArg (fun v => View.setData v b 0) (view_setBit hsb hlt true)
  · rename_i hnone
    refine hE (Finset.card_eq_zero.mpr (Finset.filter_eq_empty_iff.mpr fun b hb => ?_))
    have hlt := (Superblock.mem_pool.mp hb).2
    have := List.find?_eq_none.mp hnone b (List.mem_range.mpr hlt)
    rw [view_used hlt]
    simpa using this

/-! ### Working on an inode -/

/-- The state of an allocated inode that code may work on. -/
structure Work (s : State P) (ip : Slot) : Prop where
  ordered : s.sb.Ordered
  inum_lt : (s.icache ip).inum < s.sb.ninodes
  type_ne : (s.icache ip).d.type ≠ 0
  owned : Owned s.sb (s.focus ip)

/-- The state of an inode that code may work on, when the file has `nb` blocks. -/
structure Held (s : State P) (ip : Slot) (nb : ℕ) : Prop extends Work s ip where
  mapped : Mapped (fun k => (s.focus ip).place ((s.icache ip).inum, k)) nb

/-- A step that may change the blocks of one file and nothing else. -/
structure Grown (ip : Slot) (s s' : State P) : Prop where
  touch : Touch ip s s'
  fields : (s'.icache ip).d = { (s.icache ip).d with addrs := (s'.icache ip).d.addrs }
  dino : s'.view.dino = s.view.dino
  place : ∀ j, j ≠ (s.icache ip).inum → ∀ k, (s'.focus ip).place (j, k) = (s.focus ip).place (j, k)
  blk : ∀ j, j ≠ (s.icache ip).inum → ∀ n, (s'.focus ip).blk j n = (s.focus ip).blk j n

theorem Grown.refl (ip : Slot) (s : State P) : Grown ip s s :=
  ⟨.refl ip s, rfl, rfl, fun _ _ _ => rfl, fun _ _ _ => rfl⟩

theorem Grown.trans (h : Grown ip s s') (h' : Grown ip s' s'') : Grown ip s s'' where
  touch := h.touch.trans h'.touch
  fields := by rw [h'.fields, h.fields]
  dino := h'.dino.trans h.dino
  place j hj k := (h'.place j (h.touch.inum ▸ hj) k).trans (h.place j hj k)
  blk j hj n := (h'.blk j (h.touch.inum ▸ hj) n).trans (h.blk j hj n)

theorem focus_dino (s : State P) (ip : Slot) :
    (s.focus ip).dino (s.icache ip).inum = (s.icache ip).d := update_self ..

namespace Work

variable {b : ℕ}

variable (h : Work s ip)

include h

theorem type_ne' : ((s.focus ip).dino (s.icache ip).inum).type ≠ 0 := by
  rw [focus_dino]
  exact h.type_ne

theorem place_addr (k : Fin (nDirect + 1)) :
    (s.focus ip).place ((s.icache ip).inum, k) = blockOf ((s.icache ip).d.addrs k) := by
  rw [View.place, focus_dino, Dinode.place_addr _ h.type_ne]

theorem data_eq {p : ℕ × ℕ} (hp : (s.focus ip).place p = some b) :
    (s.focus ip).data b = s.disk b := view_data (h.owned.isData hp)

theorem place_word {c j : ℕ} (hc : (s.focus ip).place ((s.icache ip).inum, nDirect) = some c)
    (hj : j < nIndirect) :
    (s.focus ip).place ((s.icache ip).inum, nDirect + 1 + j) = blockOf ((s.disk c).word j) := by
  have hplace := Dinode.place_word (s.focus ip).data h.type_ne' hj
  rw [View.place, hplace]
  change Option.bind ((s.focus ip).place ((s.icache ip).inum, nDirect)) _ = _
  rw [hc, Option.bind_some, h.data_eq hc]

theorem block_pos (hb : b ∈ s.sb.pool) : 0 < b :=
  h.ordered.datastart_pos.trans_le (Superblock.mem_pool.mp hb).1

theorem block_lt (hb : b ∈ s.sb.pool) : b < 2 ^ 32 :=
  ((Superblock.mem_pool.mp hb).2.trans h.ordered.size_lt).trans (by decide)

end Work

variable {k : Fin (nDirect + 1)}

theorem addrOrAlloc_of_place (h : Work s ip) {a : ℕ}
    (hp : (s.focus ip).place ((s.icache ip).inum, k) = some a) :
    addrOrAlloc ip k s = .ok (a, s) := by
  rw [h.place_addr, blockOf] at hp
  split_ifs at hp with hne
  simp only [Option.some.injEq] at hp
  simp only [addrOrAlloc, bind, StateT.bind, get, getThe, MonadStateOf.get, StateT.get, pure,
    Except.pure, Except.bind, hne, ↓reduceIte, pure_eq_ok, hp]

theorem bmap_of_place (h : Work s ip) {bn a : ℕ} (hbn : bn < maxFile)
    (hp : (s.focus ip).place ((s.icache ip).inum, fileIdx bn) = some a) :
    bmap ip bn s = .ok (a, s) := by
  by_cases hdir : bn < nDirect
  · rw [fileIdx_of_lt hdir] at hp
    rw [bmap, dif_pos hdir]
    exact addrOrAlloc_of_place (k := ⟨bn, Nat.lt_succ_of_lt hdir⟩) h hp
  · obtain ⟨j, rfl⟩ := Nat.exists_eq_add_of_le (Nat.not_lt.mp hdir)
    have hj : j < nIndirect := Nat.lt_of_add_lt_add_left hbn
    rw [fileIdx_add] at hp
    have hc : ∃ c, (s.focus ip).place ((s.icache ip).inum, nDirect) = some c := by
      have hplace := Dinode.place_word (s.focus ip).data h.type_ne' hj
      rw [View.place, hplace] at hp
      obtain ⟨c, hc, -⟩ := Option.bind_eq_some_iff.mp hp
      exact ⟨c, hc⟩
    obtain ⟨c, hc⟩ := hc
    rw [h.place_word hc hj, blockOf] at hp
    split_ifs at hp with hne
    simp only [Option.some.injEq] at hp
    have haddr := addrOrAlloc_of_place (k := Fin.last nDirect) h hc
    rw [bmap, dif_neg hdir, if_pos (by rwa [Nat.add_sub_cancel_left])]
    simp only [bind, StateT.bind, haddr, Except.bind, bread, get, getThe, MonadStateOf.get,
      StateT.get, pure, Except.pure, pure_eq_ok, Nat.add_sub_cancel_left, hne, ↓reduceIte, hp]

variable {b : ℕ}

theorem balloc_focus (hsame : SameMem s s') (hview : s'.view = (s.view.setUsed b true).setData b 0)
    (ip : Slot) : s'.focus ip = ((s.focus ip).setUsed b true).setData b 0 := by
  rw [hsame.focus, hview]
  rfl

/-- An address that is zero is replaced by that of a new block. -/
theorem addrOrAlloc_spec (h : Work s ip) (hnone : (s.focus ip).place ((s.icache ip).inum, k) = none)
    (hE : (s.focus ip).free s.sb = 0 → E .outOfBlocks) :
    Wp E (addrOrAlloc ip k) (fun b s' => Touch ip s s' ∧ b ∈ s.sb.pool ∧
      (s.focus ip).used b = false ∧ s'.view.dino = s.view.dino ∧
      (s'.icache ip).d = { (s.icache ip).d with
        addrs := update (s.icache ip).d.addrs k (BitVec.ofNat 32 b) } ∧
      s'.focus ip = (((s.focus ip).setUsed b true).setData b 0).setDino (s.icache ip).inum
        { (s.focus ip).dino (s.icache ip).inum with
          addrs := update ((s.focus ip).dino (s.icache ip).inum).addrs k
            (BitVec.ofNat 32 b) }) s := by
  rw [h.place_addr, blockOf_eq_none_iff] at hnone
  simp only [addrOrAlloc, wp_bind, wp_get, hnone, ↓reduceIte]
  refine (balloc_spec h.ordered h.owned.low hE).mono ?_
  rintro b s' ⟨hsame, hb, hu, hview⟩
  simp only [setAddr, modifyInode, wp_modify, wp_pure]
  have hic : s'.icache ip = s.icache ip := congrFun hsame.icache ip
  refine ⟨(Touch.of_sameMem hsame).trans (.setInode s' ip _), hb, hu, ?_, ?_, ?_⟩
  · rw [view_setInode, hview]
    rfl
  · simp only [State.setInode_icache, update_self, hic]
  · rw [focus_setInode, balloc_focus hsame hview, hic, focus_dino]

/-- What `bmap` does to the file. -/
structure BmapPost (s : State P) (ip : Slot) (nb bn a : ℕ) (s' : State P) : Prop where
  grown : Grown ip s s'
  held : Held s' ip (max nb (bn + 1))
  place : (s'.focus ip).place ((s.icache ip).inum, fileIdx bn) = some a
  blk : ∀ n, (s'.focus ip).blk (s.icache ip).inum n =
    if n = bn ∧ nb ≤ bn then some 0 else (s.focus ip).blk (s.icache ip).inum n
  free : (s'.focus ip).free s.sb + blocksOf (max nb (bn + 1)) = (s.focus ip).free s.sb + blocksOf nb
  same : bn < nb → s'.icache = s.icache

theorem free_setUsed {sb : Superblock} (v v' : View) (hb : b ∈ sb.pool) (hu : v.used b = false)
    (hv' : v'.used = update v.used b true) : v'.free sb + 1 = v.free sb := by
  rw [View.free, View.free, hv']
  exact Ledger.card_unused_alloc hb hu

variable {nb : ℕ}

theorem BmapPost.of_alloc (h : Held s ip nb) (hu : (s.focus ip).used b = false)
    (htouch : Touch ip s s')
    (hd : (s'.icache ip).d = { (s.icache ip).d with addrs := (s'.icache ip).d.addrs })
    (hdino : s'.view.dino = s.view.dino) (howned : Owned s.sb (s'.focus ip))
    (hself : (s'.focus ip).place ((s.icache ip).inum, fileIdx nb) = some b)
    (hplace : ∀ p, p ≠ ((s.icache ip).inum, fileIdx nb) → p ≠ ((s.icache ip).inum, nDirect) →
      (s'.focus ip).place p = (s.focus ip).place p)
    (hmapped : Mapped (fun k => (s'.focus ip).place ((s.icache ip).inum, k)) (nb + 1))
    (hzero : (s'.focus ip).data b = 0)
    (hdata : ∀ p c, (s.focus ip).place p = some c → p.2 ≠ nDirect →
      (s'.focus ip).data c = (s.focus ip).data c)
    (hfree : (s'.focus ip).free s.sb + blocksOf (nb + 1) = (s.focus ip).free s.sb + blocksOf nb) :
    BmapPost s ip nb nb b s' := by
  have hmax : max nb (nb + 1) = nb + 1 := max_eq_right (le_succ nb)
  have hblk := h.owned.blk_alloc hu hself hzero
    (fun j m hne => hplace _
      (fun heq => hne <| by
        rw [Prod.mk.injEq] at heq ⊢
        exact ⟨heq.1, fileIdx_injective heq.2⟩)
      fun heq => fileIdx_ne m (congrArg Prod.snd heq))
    fun j m c hc _ => hdata _ c hc (fileIdx_ne m)
  refine ⟨⟨htouch, hd, hdino, fun j hj k => ?_, fun j hj n => ?_⟩, ?_, hself, fun n => ?_, ?_,
    fun hlt => absurd hlt (lt_irrefl nb)⟩
  · exact hplace _ (by simp [hj]) (by simp [hj])
  · rw [hblk, if_neg (by simp [hj])]
  · rw [hmax]
    refine ⟨⟨htouch.sb ▸ h.ordered, ?_, by rw [hd]; exact h.type_ne, htouch.sb ▸ howned⟩, ?_⟩
    · rw [htouch.inum, htouch.sb]
      exact h.inum_lt
    · rw [htouch.inum]
      exact hmapped
  · rw [hblk]
    simp
  · rw [hmax]
    exact hfree

theorem update_place {f : ℕ × ℕ → Option ℕ} (i k : ℕ) (o : Option ℕ) :
    (fun l => update f (i, k) o (i, l)) = update (fun l => f (i, l)) k o := by
  funext l
  by_cases hlk : l = k
  · subst hlk
    rw [update_self, update_self]
  · rw [update_of_ne hlk, update_of_ne (by simp [hlk])]

theorem bmap_direct (h : Held s ip nb) (hbn : nb < nDirect)
    (hE : (s.focus ip).free s.sb = 0 → E .outOfBlocks) :
    Wp E (bmap ip nb) (BmapPost s ip nb nb) s := by
  have hmax : nb < maxFile := hbn.trans (by decide)
  have hnone := h.mapped.eq_none hmax (le_refl nb)
  have hidx := fileIdx_of_lt hbn
  rw [hidx] at hnone
  rw [bmap, dif_pos hbn]
  refine (addrOrAlloc_spec (k := ⟨nb, lt_succ_of_lt hbn⟩) h.toWork hnone hE).mono ?_
  rintro b s' ⟨htouch, hb, hu, hdino, hd, hfocus⟩
  obtain ⟨hplace, howned⟩ := h.owned.allocAddr h.type_ne' hb hu (h.block_pos hb) (h.block_lt hb)
    ⟨nb, lt_succ_of_lt hbn⟩ hnone hfocus
  refine .of_alloc h hu htouch (by rw [hd]) hdino howned ?_ (fun p hp _ => ?_) ?_ ?_
    (fun p c hc _ => ?_) ?_
  · rw [hplace, hidx, update_self]
  · rw [hplace, update_of_ne (by rwa [hidx] at hp)]
  · have hsnoc := h.mapped.snoc hmax hbn.ne b
    rw [hidx] at hsnoc
    rw [hplace, update_place]
    exact hsnoc
  · rw [hfocus, View.setDino_data, View.setData_data, update_self]
  · have hne : c ≠ b := by
      rintro rfl
      exact h.owned.ledger.ne_of_unused hu hc
    rw [hfocus, View.setDino_data, View.setData_data, update_of_ne hne, View.setUsed_data]
  · have hcount := free_setUsed (s.focus ip) (s'.focus ip) hb hu (by rw [hfocus]; rfl)
    rw [blocksOf, blocksOf, if_neg (by omega), if_neg (by omega)]
    omega

/-- An entry of the indirect block is set to a new block. -/
theorem bmapWord_spec (h : Work s ip) {c : ℕ} (j : ℕ)
    (hc : (s.focus ip).place ((s.icache ip).inum, nDirect) = some c)
    (hE : (s.focus ip).free s.sb = 0 → E .outOfBlocks) {Q : ℕ → State P → Prop}
    (hQ : ∀ b s', SameMem s s' → b ∈ s.sb.pool → (s.focus ip).used b = false →
      s'.view.dino = s.view.dino →
      s'.focus ip = (((s.focus ip).setUsed b true).setData b 0).setData c
        (((s.focus ip).data c).setWord j (BitVec.ofNat 32 b)) → Q b s') :
    Wp E balloc (fun b s' =>
      Wp E (logWrite c ((s.disk c).setWord j (BitVec.ofNat 32 b))) (fun _ s' => Q b s') s') s := by
  refine (balloc_spec h.ordered h.owned.low hE).mono fun b s' ⟨hsame, hb, hu, hview⟩ => ?_
  have hview' : (s'.setBlock c ((s.disk c).setWord j (BitVec.ofNat 32 b))).view =
      s'.view.setData c ((s.disk c).setWord j (BitVec.ofNat 32 b)) :=
    view_setData (hsame.sb ▸ h.ordered) (hsame.sb ▸ h.owned.isData hc) _
  simp only [logWrite, wp_modify]
  refine hQ _ _ (hsame.trans ⟨rfl, rfl, rfl, rfl⟩) hb hu ?_ ?_
  · rw [view_record, hview', hview]
    rfl
  · rw [focus_record, State.focus, State.setBlock_icache, hview', hview, hsame.icache, h.data_eq hc]
    rfl

theorem bmap_add (ip : Slot) {j : ℕ} (hj : j < nIndirect) : (bmap ip (nDirect + j) : M P ℕ) = (do
      let addr ← addrOrAlloc ip (Fin.last nDirect)
      let bp ← bread addr
      if bp.word j = 0 then
        let b ← balloc
        logWrite addr (bp.setWord j (BitVec.ofNat 32 b))
        return b
      else
        return (bp.word j).toNat) := by
  rw [bmap, dif_neg (by omega), if_pos (by rwa [Nat.add_sub_cancel_left])]
  simp only [Nat.add_sub_cancel_left]

/-- The data of the blocks in places other than indirect ones, after a word of an indirect block
has been allocated. -/
theorem data_allocWord {sb : Superblock} {v v' : View} (h : Owned sb v) {i c : ℕ} {x : Block}
    (hu : v.used b = false) (hc : v.place (i, nDirect) = some c)
    (hv' : v' = ((v.setUsed b true).setData b 0).setData c x) :
    v'.data b = 0 ∧ ∀ p e, v.place p = some e → p.2 ≠ nDirect → v'.data e = v.data e := by
  have hcb : b ≠ c := by
    rintro rfl
    exact h.ledger.ne_of_unused hu hc
  refine ⟨?_, fun p e he hp => ?_⟩
  · rw [hv', View.setData_data, update_of_ne hcb, View.setData_data, update_self]
  · have hec : e ≠ c := by
      rintro rfl
      exact hp (congrArg Prod.snd (h.ledger.injective he hc))
    have heb : e ≠ b := by
      rintro rfl
      exact h.ledger.ne_of_unused hu he
    rw [hv', View.setData_data, update_of_ne hec, View.setData_data,
      update_of_ne heb, View.setUsed_data]

theorem bmap_word (h : Held s ip nb) (hbn : nDirect < nb) (hmax : nb < maxFile)
    (hE : (s.focus ip).free s.sb = 0 → E .outOfBlocks) :
    Wp E (bmap ip nb) (BmapPost s ip nb nb) s := by
  obtain ⟨j, rfl⟩ := Nat.exists_eq_add_of_le hbn.le
  have hj : j < nIndirect := Nat.lt_of_add_lt_add_left hmax
  have hidx := fileIdx_add j
  have hnone := h.mapped.eq_none hmax (le_refl _)
  rw [hidx] at hnone
  obtain ⟨c, hc⟩ := Option.ne_none_iff_exists'.mp (h.mapped.indirect.mpr hbn)
  have hword : (s.disk c).word j = 0 := by
    rw [h.place_word hc hj] at hnone
    exact blockOf_eq_none_iff.mp hnone
  rw [bmap_add ip hj, wp_bind, wp_of_ok (addrOrAlloc_of_place (k := Fin.last nDirect) h.toWork hc)]
  simp only [bread, wp_bind, wp_get, wp_pure, hword, ↓reduceIte]
  refine bmapWord_spec h.toWork j hc hE fun b s' hsame hb hu hdino hfocus => ?_
  obtain ⟨hplace, howned⟩ := h.owned.allocWord hb hu (h.block_pos hb) (h.block_lt hb) hc hj hnone
    hfocus
  obtain ⟨hzero, hdata⟩ := data_allocWord h.owned hu hc hfocus
  refine .of_alloc h hu (.of_sameMem hsame) (by rw [hsame.icache]) hdino howned ?_
    (fun p hp _ => ?_) ?_ hzero hdata ?_
  · rw [hplace, hidx, update_self]
  · rw [hplace, update_of_ne (by rwa [hidx] at hp)]
  · have hsnoc := h.mapped.snoc hmax hbn.ne' b
    rw [hidx] at hsnoc
    rw [hplace, update_place]
    exact hsnoc
  · have hcount := free_setUsed (s.focus ip) (s'.focus ip) hb hu (by rw [hfocus]; rfl)
    rw [blocksOf, blocksOf, if_pos (by omega), if_pos hbn]
    omega

theorem bmap_first (h : Held s ip nDirect) (hE : (s.focus ip).free s.sb < 2 → E .outOfBlocks) :
    Wp E (bmap ip nDirect) (BmapPost s ip nDirect nDirect) s := by
  have hidx : fileIdx nDirect = nDirect + 1 := fileIdx_add 0
  have hnone : (s.focus ip).place ((s.icache ip).inum, nDirect) = none := by
    by_contra hne
    exact absurd (h.mapped.indirect.mp hne) (lt_irrefl _)
  have hnone' := h.mapped.eq_none (by decide) (le_refl nDirect)
  rw [hidx] at hnone'
  rw [show (bmap ip nDirect : M P ℕ) = bmap ip (nDirect + 0) from rfl,
    bmap_add ip (by decide), wp_bind]
  refine (addrOrAlloc_spec (k := Fin.last nDirect) h.toWork hnone
    fun hzero => hE (by omega)).mono ?_
  -- the indirect block is there, but none of its words is: not yet a file of some number of blocks
  rintro c s₁ ⟨htouch, hcp, hcu, hdino, hd, hfocus⟩
  obtain ⟨hplace, howned⟩ := h.owned.allocAddr h.type_ne' hcp hcu (h.block_pos hcp)
    (h.block_lt hcp) (Fin.last nDirect) hnone hfocus
  rw [Fin.val_last] at hplace
  have hwork : Work s₁ ip := by
    refine ⟨htouch.sb ▸ h.ordered, ?_, by rw [hd]; exact h.type_ne, htouch.sb ▸ howned⟩
    rw [htouch.inum, htouch.sb]
    exact h.inum_lt
  have hc : (s₁.focus ip).place ((s₁.icache ip).inum, nDirect) = some c := by
    rw [hplace, htouch.inum]
    exact update_self ..
  have hfree₁ := free_setUsed (s.focus ip) (s₁.focus ip) hcp hcu (by rw [hfocus]; rfl)
  have hzero₁ : (s₁.focus ip).data c = 0 := by
    rw [hfocus, View.setDino_data, View.setData_data, update_self]
  have hdisk : s₁.disk c = 0 := (hwork.data_eq hc).symm.trans hzero₁
  simp only [bread, wp_bind, wp_get, wp_pure, hdisk, Block.word_zero, ↓reduceIte]
  rw [← hdisk]
  refine bmapWord_spec hwork 0 hc (fun hnofree => hE (by rw [htouch.sb] at hnofree; omega))
    fun b s' hsame hb hu hdino' hfocus' => ?_
  have hnone₁ : (s₁.focus ip).place ((s₁.icache ip).inum, nDirect + 1 + 0) = none := by
    rw [hplace, htouch.inum, update_of_ne (by simp)]
    exact hnone'
  obtain ⟨hplace', howned'⟩ := hwork.owned.allocWord hb hu (hwork.block_pos hb)
    (hwork.block_lt hb) hc (by decide) hnone₁ hfocus'
  obtain ⟨hzero, hdata⟩ := data_allocWord hwork.owned hu hc hfocus'
  have hu₀ : (s.focus ip).used b = false := by
    have hne : b ≠ c := by
      rintro rfl
      exact hwork.owned.ledger.ne_of_unused hu hc
    rw [hfocus, View.setDino_used, View.setData_used, View.setUsed_used, update_of_ne hne] at hu
    exact hu
  refine .of_alloc h hu₀ (htouch.trans (.of_sameMem hsame)) ?_ (hdino'.trans hdino)
    (htouch.sb ▸ howned') ?_ (fun p hp hp' => ?_) ?_ hzero (fun p e he hp => ?_) ?_
  · rw [hsame.icache, hd]
  · rw [hplace', hidx, htouch.inum, update_self]
  · rw [hplace', htouch.inum, update_of_ne (by rwa [hidx] at hp), hplace, update_of_ne hp']
  · have hsnoc := h.mapped.snocIndirect c b
    rw [hidx] at hsnoc
    rw [hplace', htouch.inum, update_place, hplace, update_place]
    exact hsnoc
  · have he₁ : (s₁.focus ip).place p = some e := by
      rw [hplace, update_of_ne (fun heq => hp (congrArg Prod.snd heq)), he]
    have hec : e ≠ c := by
      rintro rfl
      exact h.owned.ledger.ne_of_unused hcu he
    rw [hdata p e he₁ hp, hfocus, View.setDino_data, View.setData_data, update_of_ne hec,
      View.setUsed_data]
  · have hfree₂ := free_setUsed (s₁.focus ip) (s'.focus ip) hb hu (by rw [hfocus']; rfl)
    rw [htouch.sb] at hfree₂
    rw [blocksOf, blocksOf, if_pos (by omega), if_neg (by omega)]
    omega

/-- `bmap` on the next block of the file or one it has: the block is there afterwards, new blocks
are zero, and nothing else changes. It fails only if the free blocks do not suffice. -/
theorem bmap_spec {bn : ℕ} (h : Held s ip nb) (hle : bn ≤ nb) (hmax : bn < maxFile)
    (hE : (s.focus ip).free s.sb + blocksOf nb < blocksOf (max nb (bn + 1)) → E .outOfBlocks) :
    Wp E (bmap ip bn) (BmapPost s ip nb bn) s := by
  rcases lt_or_eq_of_le hle with hlt | rfl
  · obtain ⟨a, ha⟩ := h.mapped.exists_block hlt
    have hnb : max nb (bn + 1) = nb := max_eq_left hlt
    rw [wp_of_ok (bmap_of_place h.toWork hmax ha)]
    refine ⟨.refl ip s, by rwa [hnb], ha, fun n => ?_, by rw [hnb], fun _ => rfl⟩
    rw [if_neg (by omega)]
  · have hnb : max bn (bn + 1) = bn + 1 := max_eq_right (le_succ bn)
    rw [hnb] at hE
    rcases lt_trichotomy bn nDirect with hdir | rfl | hind
    · refine bmap_direct h hdir fun hzero => hE ?_
      rw [blocksOf, blocksOf, if_neg (by omega), if_neg (by omega)]
      omega
    · refine bmap_first h fun hfew => hE ?_
      rw [blocksOf, blocksOf, if_neg (by omega), if_pos (by omega)]
      omega
    · refine bmap_word h hind hmax fun hzero => hE ?_
      rw [blocksOf, blocksOf, if_pos hind, if_pos (by omega)]
      omega

end Dave.Fs
