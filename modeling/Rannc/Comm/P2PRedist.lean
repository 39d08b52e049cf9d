import Rannc.Comm.Redist
import Rannc.Lib.Rendezvous
import Rannc.Lib.Schedule

/-!
# Redistribution by messages between two ranks

Without the collective call every rank walks over the peers of the communicator and exchanges a
message with each, where a send waits for its receive. The higher rank of a pair sends first. All
ranks then follow one plan: pairs come by the sum of their ranks.
-/
namespace Rannc

open Blocks

/-- What a rank does in its loop, each time with a peer of the communicator or with itself. -/
inductive P2POp
  | send (peer : ℕ) (count displ : ℤ)
  | recv (peer : ℕ) (count displ : ℤ)
  | copy (count sdispl rdispl : ℤ)

namespace P2PRedist

section Loop

variable (args : RedistArgs) (my_local_rank : ℕ)

def sendOps (i : ℕ) : List P2POp :=
  let sc := args.sendcounts.getD i 0
  if 0 < sc then [.send i sc (args.sdispls.getD i 0)] else []

def recvOps (i : ℕ) : List P2POp :=
  let rc := args.recvcounts.getD i 0
  if 0 < rc then [.recv i rc (args.rdispls.getD i 0)] else []

def copyOps (i : ℕ) : List P2POp :=
  let sc := args.sendcounts.getD i 0
  if 0 < sc then [.copy sc (args.sdispls.getD i 0) (args.rdispls.getD i 0)] else []

/-- One round of the loop. -/
def turn (i : ℕ) : List P2POp :=
  if i < my_local_rank then sendOps args i ++ recvOps args i
  else if my_local_rank < i then recvOps args i ++ sendOps args i
  else copyOps args i

def loop : List P2POp :=
  (List.range args.sendcounts.length).flatMap (turn args my_local_rank)

/-- An operation carries the peer's entries of the arguments. -/
def IsOp : P2POp → Prop
  | .send p count displ => p ≠ my_local_rank ∧ count = args.sendcounts.getD p 0 ∧
      displ = args.sdispls.getD p 0
  | .recv p _ displ => p ≠ my_local_rank ∧ displ = args.rdispls.getD p 0
  | .copy count sdispl rdispl => count = args.sendcounts.getD my_local_rank 0 ∧
      sdispl = args.sdispls.getD my_local_rank 0 ∧ rdispl = args.rdispls.getD my_local_rank 0

theorem isOp_of_mem_sendOps {i : ℕ} (hi : i ≠ my_local_rank) :
    ∀ op ∈ sendOps args i, IsOp args my_local_rank op := by
  intro op hop
  unfold sendOps at hop
  dsimp only at hop
  split_ifs at hop
  · rw [List.mem_singleton.mp hop]
    exact ⟨hi, rfl, rfl⟩
  · exact absurd hop List.not_mem_nil

theorem isOp_of_mem_recvOps {i : ℕ} (hi : i ≠ my_local_rank) :
    ∀ op ∈ recvOps args i, IsOp args my_local_rank op := by
  intro op hop
  unfold recvOps at hop
  dsimp only at hop
  split_ifs at hop
  · rw [List.mem_singleton.mp hop]
    exact ⟨hi, rfl⟩
  · exact absurd hop List.not_mem_nil

theorem isOp_of_mem_copyOps : ∀ op ∈ copyOps args my_local_rank, IsOp args my_local_rank op := by
  intro op hop
  unfold copyOps at hop
  dsimp only at hop
  split_ifs at hop
  · rw [List.mem_singleton.mp hop]
    exact ⟨rfl, rfl, rfl⟩
  · exact absurd hop List.not_mem_nil

theorem isOp_of_mem_loop : ∀ op ∈ loop args my_local_rank, IsOp args my_local_rank op := by
  intro op hop
  obtain ⟨i, -, hop⟩ := List.mem_flatMap.mp hop
  unfold turn at hop
  split_ifs at hop with hlt hgt
  · cases List.mem_append.mp hop with
    | inl hsend => exact isOp_of_mem_sendOps args my_local_rank hlt.ne op hsend
    | inr hrecv => exact isOp_of_mem_recvOps args my_local_rank hlt.ne op hrecv
  · cases List.mem_append.mp hop with
    | inl hrecv => exact isOp_of_mem_recvOps args my_local_rank hgt.ne' op hrecv
    | inr hsend => exact isOp_of_mem_sendOps args my_local_rank hgt.ne' op hsend
  · have hi : i = my_local_rank := by omega
    rw [hi] at hop
    exact isOp_of_mem_copyOps args my_local_rank op hop

end Loop

/-- A block on its way from one local rank to another. -/
structure Transfer where
  src : ℕ
  dest : ℕ
  count : ℤ
  sdispl : ℤ
  rdispl : ℤ
  deriving DecidableEq, Repr

/-- What the local ranks still have to do, their receive buffers, and the transfers made. -/
structure State (α : Type) where
  todo : ℕ → List P2POp
  recvbuf : ℕ → List α
  transfers : List Transfer

section Exchange

variable {α : Type} (args : ℕ → RedistArgs) (sendbuf recvbuf : ℕ → List α) (n : ℕ)

def store (buf : List α) (t : Transfer) : List α :=
  write buf t.rdispl.toNat (slice (sendbuf t.src) t.sdispl.toNat t.count.toNat)

def State.arrive (σ : State α) (t : Transfer) (todo : ℕ → List P2POp) : State α where
  todo := todo
  recvbuf := Function.update σ.recvbuf t.dest (store sendbuf (σ.recvbuf t.dest) t)
  transfers := σ.transfers ++ [t]

/-- A send and a receive pass together, once each is the next operation of its rank. -/
inductive Step (σ : State α) : State α → Prop
  | transfer {s d : ℕ} {count count' sdispl rdispl : ℤ} {srest drest : List P2POp} : s ≠ d →
      σ.todo s = .send d count sdispl :: srest → σ.todo d = .recv s count' rdispl :: drest →
      Step σ (σ.arrive sendbuf ⟨s, d, count, sdispl, rdispl⟩
        (Function.update (Function.update σ.todo s srest) d drest))
  | copy {r : ℕ} {count sdispl rdispl : ℤ} {rest : List P2POp} :
      σ.todo r = .copy count sdispl rdispl :: rest →
      Step σ (σ.arrive sendbuf ⟨r, r, count, sdispl, rdispl⟩ (Function.update σ.todo r rest))

/-- All ranks of the communicator enter `redist`. -/
def start : State α where
  todo r := if r < n then loop (args r) r else []
  recvbuf := recvbuf
  transfers := []

/-- The block that local rank `s` holds for local rank `d`. -/
def block (s d : ℕ) : Transfer :=
  ⟨s, d, (args s).sendcounts.getD d 0, (args s).sdispls.getD d 0, (args d).rdispls.getD s 0⟩

/-- The block that an operation of rank `r` brings to it. -/
def arrival (r : ℕ) : P2POp → Option Transfer
  | .send _ _ _ => none
  | .recv p _ _ => some (block args p r)
  | .copy _ _ _ => some (block args r r)

structure Inv (σ : State α) : Prop where
  suffix : ∀ r, σ.todo r <:+ (start args recvbuf n).todo r
  arrivals : ∀ r, ((start args recvbuf n).todo r).filterMap (arrival args r) =
    σ.transfers.filter (·.dest = r) ++ (σ.todo r).filterMap (arrival args r)
  bufs : ∀ r, σ.recvbuf r = (σ.transfers.filter (·.dest = r)).foldl (store sendbuf) (recvbuf r)

variable {args sendbuf recvbuf n}

theorem inv_start : Inv args sendbuf recvbuf n (start args recvbuf n) where
  suffix _ := List.suffix_rfl
  arrivals _ := rfl
  bufs _ := rfl

theorem Inv.isOp {σ : State α} (h : Inv args sendbuf recvbuf n σ) {r : ℕ} {op : P2POp}
    (hop : op ∈ σ.todo r) : r < n ∧ IsOp (args r) r op := by
  have hmem := (h.suffix r).subset hop
  dsimp only [start] at hmem
  split_ifs at hmem with hr
  · exact ⟨hr, isOp_of_mem_loop (args r) r op hmem⟩
  · exact absurd hmem List.not_mem_nil

/-- The transfer of a block keeps the invariant, when the receiver drops the operation that
brings it and others drop operations that bring nothing. -/
theorem Inv.arrive {σ : State α} (h : Inv args sendbuf recvbuf n σ) {t : Transfer}
    {todo : ℕ → List P2POp} (hsuffix : ∀ r, todo r <:+ σ.todo r)
    (hdest : (σ.todo t.dest).filterMap (arrival args t.dest) =
      t :: (todo t.dest).filterMap (arrival args t.dest))
    (hother : ∀ r, r ≠ t.dest → (σ.todo r).filterMap (arrival args r) =
      (todo r).filterMap (arrival args r)) :
    Inv args sendbuf recvbuf n (σ.arrive sendbuf t todo) where
  suffix r := (hsuffix r).trans (h.suffix r)
  arrivals r := by
    rw [h.arrivals r]
    dsimp only [State.arrive]
    rw [List.filter_append]
    by_cases hr : r = t.dest
    · subst hr
      rw [hdest]
      simp
    · rw [hother r hr]
      simp [Ne.symm hr]
  bufs r := by
    dsimp only [State.arrive]
    rw [List.filter_append]
    by_cases hr : r = t.dest
    · subst hr
      rw [Function.update_self, h.bufs]
      simp
    · rw [Function.update_of_ne hr, h.bufs]
      simp [Ne.symm hr]

theorem suffix_update {todo : ℕ → List P2POp} {op : P2POp} {s : ℕ} {rest : List P2POp}
    (h : todo s = op :: rest) (r : ℕ) : Function.update todo s rest r <:+ todo r := by
  by_cases hr : r = s
  · subst hr
    rw [Function.update_self, h]
    exact List.suffix_cons op rest
  · rw [Function.update_of_ne hr]

theorem Inv.step {σ σ' : State α} (h : Inv args sendbuf recvbuf n σ) (hstep : Step sendbuf σ σ') :
    Inv args sendbuf recvbuf n σ' := by
  cases hstep with
  | @transfer s d count count' sdispl rdispl srest drest hne hs hd =>
    have hsend := (h.isOp (hs ▸ List.mem_cons_self)).2
    have hrecv := (h.isOp (hd ▸ List.mem_cons_self)).2
    have hblock : (⟨s, d, count, sdispl, rdispl⟩ : Transfer) = block args s d := by
      rw [hsend.2.1, hsend.2.2, hrecv.2]
      rfl
    have hd' : Function.update σ.todo s srest d = .recv s count' rdispl :: drest := by
      rw [Function.update_of_ne hne.symm, hd]
    apply h.arrive
    · intro r
      exact (suffix_update hd' r).trans (suffix_update hs r)
    · dsimp only
      rw [hd, Function.update_self, hblock]
      rfl
    · intro r hr
      dsimp only at hr
      rw [Function.update_of_ne hr]
      by_cases hrs : r = s
      · subst hrs
        rw [Function.update_self, hs]
        rfl
      · rw [Function.update_of_ne hrs]
  | @copy r count sdispl rdispl rest hr =>
    have hcopy := (h.isOp (hr ▸ List.mem_cons_self)).2
    have hblock : (⟨r, r, count, sdispl, rdispl⟩ : Transfer) = block args r r := by
      rw [hcopy.1, hcopy.2.1, hcopy.2.2]
      rfl
    apply h.arrive
    · exact suffix_update hr
    · dsimp only
      rw [hr, Function.update_self, hblock]
      rfl
    · intro q hq
      rw [Function.update_of_ne hq]

theorem Inv.run {σ σ' : State α} (h : Inv args sendbuf recvbuf n σ)
    (hrun : Relation.ReflTransGen (Step sendbuf) σ σ') : Inv args sendbuf recvbuf n σ' := by
  induction hrun with
  | refl => exact h
  | tail _ hstep ih => exact ih.step hstep

end Exchange

section Plan

variable {α : Type} {args : ℕ → RedistArgs} {sendbuf recvbuf : ℕ → List α} {n : ℕ}

/-- The message from `s` to `d`, as their loops see it. -/
abbrev Event := ℕ × ℕ

def eventRanks (e : Event) : Finset ℕ := {e.1, e.2}

def eventOf (r : ℕ) : P2POp → Event
  | .send p _ _ => (r, p)
  | .recv p _ _ => (p, r)
  | .copy _ _ _ => (r, r)

def message (args : ℕ → RedistArgs) (s d : ℕ) : List Event :=
  if 0 < (args s).sendcounts.getD d 0 then [(s, d)] else []

/-- Of a pair the higher rank sends first. -/
def meet (args : ℕ → RedistArgs) (high low : ℕ) : List Event :=
  message args high low ++ if low = high then [] else message args low high

/-- The pairs whose ranks have the sum `k`. -/
def slot (args : ℕ → RedistArgs) (n k : ℕ) : List Event :=
  (List.range n).flatMap fun low =>
    if 2 * low ≤ k ∧ k < n + low then meet args (k - low) low else []

def plan (args : ℕ → RedistArgs) (n : ℕ) : List Event :=
  (List.range (2 * n)).flatMap (slot args n)

/-- Both ends of every message between two ranks expect the same count. -/
structure Matched (args : ℕ → RedistArgs) (n : ℕ) : Prop where
  length : ∀ r < n, (args r).sendcounts.length = n
  counts : ∀ s < n, ∀ d < n, s ≠ d →
    (args s).sendcounts.getD d 0 = (args d).recvcounts.getD s 0

theorem map_sendOps (r i : ℕ) : (sendOps (args r) i).map (eventOf r) = message args r i := by
  unfold sendOps message
  dsimp only
  split_ifs <;> rfl

theorem Matched.map_recvOps (h : Matched args n) {r i : ℕ} (hr : r < n) (hi : i < n)
    (hne : i ≠ r) : (recvOps (args r) i).map (eventOf r) = message args i r := by
  unfold recvOps message
  dsimp only
  rw [← h.counts i hi r hr hne]
  split_ifs <;> rfl

theorem map_copyOps (r : ℕ) : (copyOps (args r) r).map (eventOf r) = message args r r := by
  unfold copyOps message
  dsimp only
  split_ifs <;> rfl

theorem Matched.map_turn (h : Matched args n) {r i : ℕ} (hr : r < n) (hi : i < n) :
    (turn (args r) r i).map (eventOf r) = meet args (max r i) (min r i) := by
  unfold turn meet
  split_ifs with hlt heq hgt heq
  · omega
  · rw [List.map_append, map_sendOps, h.map_recvOps hr hi hlt.ne, max_eq_left hlt.le,
      min_eq_right hlt.le]
  · omega
  · rw [List.map_append, map_sendOps, h.map_recvOps hr hi hgt.ne', max_eq_right hgt.le,
      min_eq_left hgt.le]
  · have hi' : i = r := by omega
    rw [hi', map_copyOps, max_self, min_self, List.append_nil]
  · omega

theorem Matched.map_loop (h : Matched args n) {r : ℕ} (hr : r < n) :
    (loop (args r) r).map (eventOf r) =
      (List.range n).flatMap fun i => meet args (max r i) (min r i) := by
  unfold loop
  rw [h.length r hr, List.map_flatMap]
  apply List.flatMap_congr
  intro i hi
  exact h.map_turn hr (List.mem_range.mp hi)

theorem eventRanks_of_mem_meet {high low : ℕ} {e : Event} (he : e ∈ meet args high low) :
    eventRanks e = {low, high} := by
  unfold meet message at he
  cases List.mem_append.mp he with
  | inl hhigh =>
    split_ifs at hhigh
    · rw [List.mem_singleton.mp hhigh]
      exact Finset.pair_comm high low
    · exact absurd hhigh List.not_mem_nil
  | inr hlow =>
    split_ifs at hlow
    · exact absurd hlow List.not_mem_nil
    · rw [List.mem_singleton.mp hlow]
      rfl
    · exact absurd hlow List.not_mem_nil

theorem filter_meet (r high low : ℕ) :
    (meet args high low).filter (fun e => r ∈ eventRanks e) =
      if r = low ∨ r = high then meet args high low else [] := by
  split_ifs with hr
  · apply List.filter_eq_self.mpr
    intro e he
    rw [eventRanks_of_mem_meet he]
    simpa using hr
  · apply List.filter_eq_nil_iff.mpr
    intro e he
    rw [eventRanks_of_mem_meet he]
    simpa using hr

/-- A rank has at most one partner in a slot. -/
theorem filter_slot {r : ℕ} (hr : r < n) (k : ℕ) :
    (slot args n k).filter (fun e => r ∈ eventRanks e) =
      if r ≤ k ∧ k < n + r then meet args (max r (k - r)) (min r (k - r)) else [] := by
  unfold slot
  rw [List.filter_flatMap]
  have hround : ∀ low, (if 2 * low ≤ k ∧ k < n + low then meet args (k - low) low else []).filter
      (fun e => r ∈ eventRanks e) =
        if (2 * low ≤ k ∧ k < n + low) ∧ (r = low ∨ r = k - low) then meet args (k - low) low
        else [] := by
    intro low
    by_cases hlow : 2 * low ≤ k ∧ k < n + low
    · rw [if_pos hlow, filter_meet]
      simp [hlow]
    · rw [if_neg hlow, if_neg (fun h => hlow h.1), List.filter_nil]
  rw [List.flatMap_congr fun low _ => hround low]
  split_ifs with hk
  · have hmem : min r (k - r) ∈ List.range n := List.mem_range.mpr (by omega)
    rw [Schedule.flatMap_eq_single List.nodup_range hmem, if_pos (by omega)]
    · congr 1
      omega
    · intro low _ hlow
      rw [if_neg]
      omega
  · apply List.flatMap_eq_nil_iff.mpr
    intro low hlow
    have := List.mem_range.mp hlow
    rw [if_neg]
    omega

theorem filter_plan {r : ℕ} (hr : r < n) :
    (plan args n).filter (fun e => r ∈ eventRanks e) =
      (List.range n).flatMap fun i => meet args (max r i) (min r i) := by
  unfold plan
  rw [List.filter_flatMap, List.flatMap_congr fun k _ => filter_slot hr k]
  have hrange : List.range (2 * n) = List.range r ++
      (List.range n ++ (List.range (n - r)).map (n + ·)).map (r + ·) := by
    rw [← List.range_add, ← List.range_add]
    congr 1
    omega
  have hbefore : ((List.range r).flatMap fun k =>
      if r ≤ k ∧ k < n + r then meet args (max r (k - r)) (min r (k - r)) else []) = [] := by
    apply List.flatMap_eq_nil_iff.mpr
    intro k hk
    have := List.mem_range.mp hk
    exact if_neg (by omega)
  rw [hrange, List.flatMap_append, hbefore, List.nil_append, List.flatMap_map,
    List.flatMap_append, List.flatMap_map]
  have hafter : ((List.range (n - r)).flatMap fun i => if r ≤ r + (n + i) ∧ r + (n + i) < n + r then
      meet args (max r (r + (n + i) - r)) (min r (r + (n + i) - r)) else []) = [] := by
    apply List.flatMap_eq_nil_iff.mpr
    intro i _
    exact if_neg (by omega)
  rw [hafter, List.append_nil]
  apply List.flatMap_congr
  intro i hi
  have := List.mem_range.mp hi
  rw [if_pos (by omega), Nat.add_sub_cancel_left]

theorem eventRanks_of_mem_plan {e : Event} (he : e ∈ plan args n) : ∀ r ∈ eventRanks e, r < n := by
  obtain ⟨k, -, he⟩ := List.mem_flatMap.mp he
  obtain ⟨low, hlow, he⟩ := List.mem_flatMap.mp he
  have := List.mem_range.mp hlow
  split_ifs at he with hk
  · intro r hr
    rw [eventRanks_of_mem_meet he] at hr
    cases Finset.mem_insert.mp hr with
    | inl heq => omega
    | inr hmem =>
      have := Finset.mem_singleton.mp hmem
      omega
  · exact absurd he List.not_mem_nil

/-- The messages that the ranks still have to exchange. -/
def State.pending (σ : State α) (r : ℕ) : List Event := (σ.todo r).map (eventOf r)

theorem Matched.follows (h : Matched args n) :
    Rendezvous.Follows id eventRanks (plan args n) (start args recvbuf n).pending := by
  intro r
  dsimp only [State.pending, start, id]
  split_ifs with hr
  · rw [h.map_loop hr, filter_plan hr]
  · apply Eq.symm
    apply List.filter_eq_nil_iff.mpr
    intro e he hmem
    exact hr (eventRanks_of_mem_plan he r (of_decide_eq_true hmem))

/-- The messages meet as the plan has them. -/
theorem Step.pending {σ σ' : State α} (hstep : Step sendbuf σ σ') :
    Rendezvous.Step id eventRanks σ.pending σ'.pending := by
  cases hstep with
  | @transfer s d count count' sdispl rdispl srest drest hne hs hd =>
    refine ⟨(s, d), ⟨⟨s, by simp [eventRanks]⟩, ?_⟩, ?_⟩
    · intro r hr
      cases Finset.mem_insert.mp hr with
      | inl heq =>
        rw [heq]
        simp [State.pending, hs, eventOf]
      | inr hmem =>
        rw [Finset.mem_singleton.mp hmem]
        simp [State.pending, hd, eventOf]
    · funext r
      dsimp only [State.pending, State.arrive]
      by_cases hrd : r = d
      · subst hrd
        rw [Function.update_self, if_pos (by simp [eventRanks]), hd]
        rfl
      · rw [Function.update_of_ne hrd]
        by_cases hrs : r = s
        · subst hrs
          rw [Function.update_self, if_pos (by simp [eventRanks]), hs]
          rfl
        · rw [Function.update_of_ne hrs, if_neg (by simp [eventRanks, hrs, hrd])]
  | @copy r count sdispl rdispl rest hr =>
    refine ⟨(r, r), ⟨⟨r, by simp [eventRanks]⟩, ?_⟩, ?_⟩
    · intro q hq
      have heq : q = r := by simpa [eventRanks] using hq
      rw [heq]
      simp [State.pending, hr, eventOf]
    · funext q
      dsimp only [State.pending, State.arrive]
      by_cases hq : q = r
      · subst hq
        rw [Function.update_self, if_pos (by simp [eventRanks]), hr]
        rfl
      · rw [Function.update_of_ne hq, if_neg (by simp [eventRanks, hq])]

theorem pending_run {σ σ' : State α} (hrun : Relation.ReflTransGen (Step sendbuf) σ σ') :
    Relation.ReflTransGen (Rendezvous.Step id eventRanks) σ.pending σ'.pending := by
  induction hrun with
  | refl => exact Relation.ReflTransGen.refl
  | tail _ hstep ih => exact ih.tail hstep.pending

/-- Ranks that wait for one message can exchange it. -/
theorem Inv.exists_step {σ : State α} (h : Inv args sendbuf recvbuf n σ) {s d : ℕ}
    (hs : (σ.pending s).head? = some (s, d)) (hd : (σ.pending d).head? = some (s, d)) :
    ∃ σ', Step sendbuf σ σ' := by
  have hhead : ∀ {r : ℕ} {e : Event}, (σ.pending r).head? = some e →
      ∃ op rest, σ.todo r = op :: rest ∧ eventOf r op = e ∧ IsOp (args r) r op := by
    intro r e he
    unfold State.pending at he
    cases htodo : σ.todo r with
    | nil =>
      rw [htodo] at he
      cases he
    | cons op rest =>
      rw [htodo] at he
      exact ⟨op, rest, rfl, Option.some.inj he, (h.isOp (htodo ▸ List.mem_cons_self)).2⟩
  obtain ⟨op, srest, hsop, hse, hsisop⟩ := hhead hs
  obtain ⟨op', drest, hdop, hde, hdisop⟩ := hhead hd
  by_cases hne : s = d
  · subst hne
    cases op with
    | send p count displ =>
      exact absurd (Prod.ext_iff.mp hse).2 hsisop.1
    | recv p count displ =>
      exact absurd (Prod.ext_iff.mp hse).1 hsisop.1
    | copy count sdispl rdispl => exact ⟨_, Step.copy hsop⟩
  · cases op with
    | send p count displ =>
      cases op' with
      | send p' count' displ' => exact absurd (Prod.ext_iff.mp hde).1.symm hne
      | recv p' count' displ' =>
        have hp : p = d := (Prod.ext_iff.mp hse).2
        have hp' : p' = s := (Prod.ext_iff.mp hde).1
        subst hp hp'
        exact ⟨_, Step.transfer hne hsop hdop⟩
      | copy count' sdispl rdispl => exact absurd (Prod.ext_iff.mp hde).1.symm hne
    | recv p count displ => exact absurd (Prod.ext_iff.mp hse).2 hne
    | copy count sdispl rdispl => exact absurd (Prod.ext_iff.mp hse).2 hne

theorem Matched.progress (h : Matched args n) {σ : State α}
    (hrun : Relation.ReflTransGen (Step sendbuf) (start args recvbuf n) σ)
    (hσ : ∃ r, σ.todo r ≠ []) : ∃ σ', Step sendbuf σ σ' := by
  have hplan : ∀ e ∈ plan args n, (eventRanks (id e)).Nonempty :=
    fun e _ => ⟨e.1, Finset.mem_insert_self e.1 _⟩
  have hmeet := h.follows.exists_meeting hplan (pending_run hrun)
  have hinv : Inv args sendbuf recvbuf n σ := inv_start.run hrun
  cases hmeet with
  | inl hdone =>
    obtain ⟨r, hr⟩ := hσ
    exact absurd (List.map_eq_nil_iff.mp (hdone r)) hr
  | inr hmeet =>
    obtain ⟨e, -, hheads⟩ := hmeet
    apply hinv.exists_step (s := e.1) (d := e.2)
    · exact hheads e.1 (Finset.mem_insert_self _ _)
    · exact hheads e.2 (Finset.mem_insert_of_mem (Finset.mem_singleton_self _))

theorem filterMap_sendOps (r i : ℕ) : (sendOps (args r) i).filterMap (arrival args r) = [] := by
  unfold sendOps
  dsimp only
  split_ifs <;> rfl

theorem Matched.filterMap_recvOps (h : Matched args n) {r i : ℕ} (hr : r < n) (hi : i < n)
    (hne : i ≠ r) : (recvOps (args r) i).filterMap (arrival args r) =
      if 0 < (args i).sendcounts.getD r 0 then [block args i r] else [] := by
  unfold recvOps
  dsimp only
  rw [h.counts i hi r hr hne]
  split_ifs <;> rfl

theorem filterMap_copyOps (r : ℕ) : (copyOps (args r) r).filterMap (arrival args r) =
    if 0 < (args r).sendcounts.getD r 0 then [block args r r] else [] := by
  unfold copyOps
  dsimp only
  split_ifs <;> rfl

theorem Matched.filterMap_turn (h : Matched args n) {r i : ℕ} (hr : r < n) (hi : i < n) :
    (turn (args r) r i).filterMap (arrival args r) =
      if 0 < (args i).sendcounts.getD r 0 then [block args i r] else [] := by
  unfold turn
  by_cases hlt : i < r
  · rw [if_pos hlt, List.filterMap_append, filterMap_sendOps, h.filterMap_recvOps hr hi hlt.ne,
      List.nil_append]
  · rw [if_neg hlt]
    by_cases hgt : r < i
    · rw [if_pos hgt, List.filterMap_append, filterMap_sendOps, h.filterMap_recvOps hr hi hgt.ne',
        List.append_nil]
    · have hi' : i = r := by omega
      rw [if_neg hgt, hi', filterMap_copyOps]

theorem Matched.transfers_eq (h : Matched args n) {σ : State α}
    (hinv : Inv args sendbuf recvbuf n σ) {r : ℕ} (hσ : σ.todo r = []) (hr : r < n) :
    σ.transfers.filter (·.dest = r) = (List.range n).flatMap fun s =>
      if 0 < (args s).sendcounts.getD r 0 then [block args s r] else [] := by
  have harrivals := hinv.arrivals r
  rw [hσ, List.filterMap_nil, List.append_nil] at harrivals
  rw [← harrivals]
  dsimp only [start]
  rw [if_pos hr]
  unfold loop
  rw [h.length r hr, List.filterMap_flatMap]
  apply List.flatMap_congr
  intro s hs
  exact h.filterMap_turn hr (List.mem_range.mp hs)

theorem Matched.mem_transfers (h : Matched args n) {σ : State α}
    (hinv : Inv args sendbuf recvbuf n σ) (hσ : ∀ r, σ.todo r = []) (t : Transfer) :
    t ∈ σ.transfers ↔
      ∃ s < n, ∃ d < n, 0 < (args s).sendcounts.getD d 0 ∧ t = block args s d := by
  have hfilter : t ∈ σ.transfers ↔ t ∈ σ.transfers.filter (·.dest = t.dest) := by simp
  rw [hfilter]
  by_cases hd : t.dest < n
  · rw [h.transfers_eq hinv (hσ t.dest) hd, List.mem_flatMap]
    constructor
    · rintro ⟨s, hs, ht⟩
      split_ifs at ht with hpos
      · exact ⟨s, List.mem_range.mp hs, t.dest, hd, hpos, List.mem_singleton.mp ht⟩
      · exact absurd ht List.not_mem_nil
    · rintro ⟨s, hs, d, -, hpos, rfl⟩
      refine ⟨s, List.mem_range.mpr hs, ?_⟩
      rw [if_pos (show 0 < (args s).sendcounts.getD (block args s d).dest 0 from hpos)]
      exact List.mem_singleton_self _
  · have harrivals := hinv.arrivals t.dest
    dsimp only [start] at harrivals
    rw [if_neg hd, List.filterMap_nil] at harrivals
    rw [(List.append_eq_nil_iff.mp harrivals.symm).1]
    constructor
    · exact fun h => absurd h List.not_mem_nil
    · rintro ⟨s, -, d, hd', -, rfl⟩
      exact absurd hd' hd

theorem Matched.nodup_transfers (h : Matched args n) {σ : State α}
    (hinv : Inv args sendbuf recvbuf n σ) (hσ : ∀ r, σ.todo r = []) : σ.transfers.Nodup := by
  apply List.nodup_iff_count_le_one.mpr
  intro t
  by_cases ht : t ∈ σ.transfers
  · obtain ⟨s, -, d, hd, -, rfl⟩ := (h.mem_transfers hinv hσ t).1 ht
    have hcount : σ.transfers.count (block args s d) =
        (σ.transfers.filter (·.dest = d)).count (block args s d) :=
      (List.count_filter (by simp [block])).symm
    rw [hcount, h.transfers_eq hinv (hσ d) hd]
    apply List.nodup_iff_count_le_one.mp
    apply List.nodup_flatMap.mpr
    constructor
    · intro i _
      split_ifs <;> simp
    · apply List.nodup_range.imp
      intro i j hij
      have hblock : block args i d ≠ block args j d := fun heq => hij (congrArg Transfer.src heq)
      dsimp only [Function.onFun]
      split_ifs <;> simp [hblock.symm]
  · rw [List.count_eq_zero_of_not_mem ht]
    exact Nat.zero_le 1

theorem Matched.recvbuf_eq (h : Matched args n) {σ : State α}
    (hinv : Inv args sendbuf recvbuf n σ) {r : ℕ} (hσ : σ.todo r = []) (hr : r < n) :
    σ.recvbuf r = (List.range n).foldl
      (fun buf s =>
        if 0 < (args s).sendcounts.getD r 0 then store sendbuf buf (block args s r) else buf)
      (recvbuf r) := by
  rw [hinv.bufs r, h.transfers_eq hinv hσ hr, List.foldl_flatMap]
  congr 1
  funext buf s
  split_ifs <;> rfl

end Plan

end P2PRedist

section Groups

/-- The rank at a position of the communicator of a group. -/
def getGlobalRank (group : Finset ℕ) (i : ℕ) : ℕ := (sortRanks group).getD i 0

/-- The arguments cover the group, and both ends of every message expect the same count. -/
structure MatchedArgs (group : Finset ℕ) (args : ℕ → RedistArgs) : Prop where
  length : ∀ r ∈ group, (args r).sendcounts.length = group.card
  counts : ∀ s ∈ group, ∀ d ∈ group, s ≠ d →
    (args s).sendcount group d = (args d).recvcount group s

/-- The transfer of the block from `s` to `d`. -/
def blockTransfer (group : Finset ℕ) (args : ℕ → RedistArgs) (s d : ℕ) : P2PRedist.Transfer where
  src := getLocalRank group s
  dest := getLocalRank group d
  count := (args s).sendcount group d
  sdispl := (args s).sdispl group d
  rdispl := (args d).rdispl group s

variable {group : Finset ℕ}

theorem getGlobalRank_mem {i : ℕ} (hi : i < group.card) : getGlobalRank group i ∈ group := by
  have hi' : i < (sortRanks group).length := by rwa [length_sortRanks]
  unfold getGlobalRank
  rw [List.getD_eq_getElem _ 0 hi']
  exact (mem_sortRanks group).1 (List.getElem_mem hi')

theorem getLocalRank_getGlobalRank {i : ℕ} (hi : i < group.card) :
    getLocalRank group (getGlobalRank group i) = i := by
  have hi' : i < (sortRanks group).length := by rwa [length_sortRanks]
  unfold getLocalRank getGlobalRank
  rw [List.getD_eq_getElem _ 0 hi']
  exact (nodup_sortRanks group).idxOf_getElem i hi'

theorem getLocalRank_lt {r : ℕ} (hr : r ∈ group) : getLocalRank group r < group.card := by
  rw [← length_sortRanks]
  exact List.idxOf_lt_length_of_mem ((mem_sortRanks group).2 hr)

theorem getGlobalRank_getLocalRank {r : ℕ} (hr : r ∈ group) :
    getGlobalRank group (getLocalRank group r) = r := by
  have hlt : getLocalRank group r < (sortRanks group).length := by
    rw [length_sortRanks]
    exact getLocalRank_lt hr
  unfold getGlobalRank
  rw [List.getD_eq_getElem _ 0 hlt]
  exact List.getElem_idxOf hlt

theorem map_getGlobalRank :
    (List.range group.card).map (getGlobalRank group) = sortRanks group := by
  apply List.ext_getElem
  · simp
  · intro i hi hi'
    rw [List.getElem_map, List.getElem_range]
    exact List.getD_eq_getElem _ 0 hi'

theorem MatchedArgs.matched {args : ℕ → RedistArgs} (h : MatchedArgs group args) :
    P2PRedist.Matched (fun i => args (getGlobalRank group i)) group.card where
  length i hi := h.length _ (getGlobalRank_mem hi)
  counts i hi j hj hne := by
    have hranks : getGlobalRank group i ≠ getGlobalRank group j := by
      intro heq
      have hlocal := congrArg (getLocalRank group) heq
      rw [getLocalRank_getGlobalRank hi, getLocalRank_getGlobalRank hj] at hlocal
      exact hne hlocal
    have hcounts := h.counts _ (getGlobalRank_mem hi) _ (getGlobalRank_mem hj) hranks
    unfold RedistArgs.sendcount RedistArgs.recvcount at hcounts
    rwa [getLocalRank_getGlobalRank hi, getLocalRank_getGlobalRank hj] at hcounts

theorem block_getGlobalRank (args : ℕ → RedistArgs) {i j : ℕ} (hi : i < group.card)
    (hj : j < group.card) : P2PRedist.block (fun i => args (getGlobalRank group i)) i j =
      blockTransfer group args (getGlobalRank group i) (getGlobalRank group j) := by
  unfold P2PRedist.block blockTransfer RedistArgs.sendcount RedistArgs.sdispl RedistArgs.rdispl
  rw [getLocalRank_getGlobalRank hi, getLocalRank_getGlobalRank hj]

/-- The walk over the local ranks is the walk of `redist` over the ranks of the group. -/
theorem foldl_store_eq_redist {α : Type} {args : ℕ → RedistArgs} (h : MatchedArgs group args)
    (sendbuf : ℕ → List α) {r : ℕ} (hr : r ∈ group) (buf : List α) :
    (List.range group.card).foldl (fun buf s =>
      if 0 < (args (getGlobalRank group s)).sendcounts.getD (getLocalRank group r) 0 then
        P2PRedist.store (fun i => sendbuf (getGlobalRank group i)) buf
          (P2PRedist.block (fun i => args (getGlobalRank group i)) s (getLocalRank group r))
      else buf) buf = redist group args sendbuf r buf := by
  unfold redist
  rw [← map_getGlobalRank, List.foldl_map]
  apply List.foldl_ext
  intro buf s hs
  have hs' := List.mem_range.mp hs
  have hmem := getGlobalRank_mem hs'
  have hcount : (if getGlobalRank group s = r then (args r).sendcount group r
      else (args r).recvcount group (getGlobalRank group s)) =
        (args (getGlobalRank group s)).sendcount group r := by
    split_ifs with heq
    · rw [heq]
    · exact (h.counts _ hmem r hr heq).symm
  unfold redistStep
  dsimp only
  rw [hcount, block_getGlobalRank args hs' (getLocalRank_lt hr), getGlobalRank_getLocalRank hr]
  unfold P2PRedist.store sentBlock blockTransfer
  dsimp only
  rw [getLocalRank_getGlobalRank hs']
  rfl

theorem groupArgs_length {counts : RankMap (ℕ × ℕ)} :
    (groupArgs group counts).length = group.card := by
  rw [groupArgs, List.length_map, length_sortRanks]

section Args

variable {me B : ℕ} {dim : List ℕ} {S D : Finset ℕ} {split : ℕ}

theorem getRedistArgs_length (hme : me ∈ S ∪ D) :
    (getRedistArgs me B dim S D split).sendcounts.length = (S ∪ D).card := by
  unfold getRedistArgs
  dsimp only
  split_ifs with hS hD hD
  · exact (List.length_map _).trans groupArgs_length
  · exact (List.length_map _).trans groupArgs_length
  · exact (List.length_map _).trans groupArgs_length
  · cases Finset.mem_union.mp hme with
    | inl hmem => exact absurd hmem hS
    | inr hmem => exact absurd hmem hD

theorem getRedistArgs_recvcount_eq_zero (hme : me ∉ D) (r : ℕ) :
    (getRedistArgs me B dim S D split).recvcount (S ∪ D) r = 0 := by
  unfold getRedistArgs RedistArgs.recvcount
  dsimp only
  split_ifs
  · simp only [getRedistArgsSend, List.getD_eq_getElem?_getD, List.getElem?_map]
    cases (groupArgs (S ∪ D) _)[getLocalRank (S ∪ D) r]? <;> rfl
  · rfl

end Args

theorem getRedistArgs_matched {S D : Finset ℕ} {B k split : ℕ} {rest : List ℕ} :
    MatchedArgs (S ∪ D) fun r => getRedistArgs r B (k * B :: rest) S D split where
  length r hr := getRedistArgs_length hr
  counts s hs d hd hne := by
    have hargs : ∀ r ∈ S ∪ D, getRedistArgs r B (k * B :: rest) S D split =
      getRedistArgs r B (k * B :: rest) S D split := fun r _ => rfl
    by_cases hsS : s ∈ S
    · by_cases hdD : d ∈ D
      · rw [sendcount_eq_toInt hargs hsS hdD, recvcount_eq_toInt hargs hsS hdD]
      · rw [getRedistArgs_recvcount_eq_zero hdD, (getRedistArgs_send _ _ _ hsS hd).1, sendEntry,
          redistCounts, lookup_overlapLoop_of_not_mem]
        · exact toInt_natCast (n := 0) (by decide)
        · simpa [Function.comp_def] using hdD
    · rw [sendcount_eq_zero hargs hs hsS]
      by_cases hdD : d ∈ D
      · exact (recvcount_eq_zero hargs hs hsS hdD).symm
      · exact (getRedistArgs_recvcount_eq_zero hdD s).symm

end Groups

end Rannc
