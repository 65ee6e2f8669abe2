import FpgaCnc.Firmware.HelloLed

/-!
# What `ReceivePacket` stores into `RXT`

`RXT` has 512 bytes. The accept test lets every length below
`MAX_PACKET_SIZE = 1522` through, and the copy loop stores two bytes a round:
a good packet of more than 512 bytes runs over the end of the buffer.

§1 the indexes of the copy loop · §2 the bound.
-/

namespace FpgaCnc.HelloLed

open IoProg Dm9000a

/-! ## §1  The indexes of the copy loop -/

/-- `volatile unsigned char RXT[512]`. -/
def rxtSize : ℕ := 512

/-- The copy loop stores to the `2 * ws.length` indexes from `i` on, and to no
others. -/
theorem copyBytes_stores (ws : List (BitVec 32)) (i : ℕ) (b : Buffer) :
    ∃ idx, (copyBytes ws i b).stores = idx ++ b.stores ∧
      ∀ j, j ∈ idx ↔ i ≤ j ∧ j < i + 2 * ws.length := by
  induction ws generalizing i b with
  | nil =>
      refine ⟨[], rfl, fun j => ?_⟩
      simp
  | cons w ws ih =>
      obtain ⟨idx, hstores, hmem⟩ := ih (i + 2) ((b.store i ((w &&& 0xFF).setWidth 8)).store
        (i + 1) (((w >>> 8) &&& 0xFF).setWidth 8))
      refine ⟨idx ++ [i + 1, i], ?_, fun j => ?_⟩
      · rw [copyBytes, hstores, List.append_assoc]
        rfl
      · simp only [List.mem_append, hmem, List.mem_cons, List.not_mem_nil, or_false,
          List.length_cons]
        omega

/-- The indexes one call stores to: two for every data word of a good packet,
none for any other answer. -/
theorem result_stores {r : RxResponse} (hr : r.Complete) (b : Buffer) :
    ∃ idx, (r.result b).dataPtr.stores = idx ++ b.stores ∧
      ∀ j, j ∈ idx ↔ r.packetReady ∧ r.good ∧ j < 2 * ((r.len.toNat + 1) / 2) := by
  by_cases hgood : r.packetReady ∧ r.good
  · obtain ⟨idx, hstores, hmem⟩ := copyBytes_stores r.words 0 b
    have hlen : r.words.length = (r.len.toNat + 1) / 2 := by
      rw [show r.words.length = _ from hr, if_pos hgood.1]
    refine ⟨idx, ?_, fun j => ?_⟩
    · rw [RxResponse.result_of_good hgood.1 hgood.2]
      exact hstores
    · rw [hmem, hlen]
      constructor
      · rintro ⟨-, hj⟩
        exact ⟨hgood.1, hgood.2, by omega⟩
      · rintro ⟨-, -, hj⟩
        exact ⟨Nat.zero_le j, by omega⟩
  · refine ⟨[], ?_, fun j => ?_⟩
    · rw [RxResponse.result_of_not_good hgood]
      rfl
    · constructor
      · intro hj
        exact absurd hj List.not_mem_nil
      · rintro ⟨hready, hg, -⟩
        exact absurd ⟨hready, hg⟩ hgood

/-! ## §2  The bound -/

/-- **Exactly the good packets of at most 512 bytes stay inside `RXT`.** For
every answer of the NIC the call ends, and the indexes it has stored to are all
below the size of `RXT` if and only if the answer is not a good packet of more
than 512 bytes. -/
theorem rxt_in_bounds_iff (g : Globals) (r : RxResponse) (hr : r.Complete) :
    (∃ y, Completes (receivePacket g.rxt) r.trace y) ∧
      ∀ y, Completes (receivePacket g.rxt) r.trace y →
        ∃ idx, y.dataPtr.stores = idx ++ g.rxt.stores ∧
          ((∀ j ∈ idx, j < rxtSize) ↔ ¬ (r.packetReady ∧ r.good ∧ rxtSize < r.len.toNat)) := by
  have hrun : Completes (receivePacket g.rxt) r.trace (r.result g.rxt) :=
    completes_receivePacket.mpr ⟨r, hr, rfl, rfl⟩
  refine ⟨⟨_, hrun⟩, fun y hy => ?_⟩
  -- the answers determine the run
  obtain rfl : r.result g.rxt = y := IoProg.ret.inj (Option.some.inj (hrun.symm.trans hy))
  obtain ⟨idx, hstores, hmem⟩ := result_stores hr g.rxt
  refine ⟨idx, hstores, ?_⟩
  constructor
  · rintro hbound ⟨hready, hgood, hlong⟩
    rw [rxtSize] at hlong
    have hover := hbound 512 ((hmem 512).mpr ⟨hready, hgood, by omega⟩)
    exact absurd hover (Nat.lt_irrefl 512)
  · intro hshort j hj
    obtain ⟨hready, hgood, hlt⟩ := (hmem j).mp hj
    have hlen : r.len.toNat ≤ rxtSize := Nat.not_lt.mp fun hlong => hshort ⟨hready, hgood, hlong⟩
    rw [rxtSize] at hlen ⊢
    omega

/-- A good packet of `len` bytes, all zero. -/
def goodPacket (len : BitVec 32) : RxResponse :=
  ⟨1, 1, 0, len, List.replicate ((len.toNat + 1) / 2) 0⟩

theorem packetReady_goodPacket (len : BitVec 32) : (goodPacket len).packetReady := by
  show (1 : BitVec 32) &&& 0x03 = DM9000_PKT_READY
  decide

theorem complete_goodPacket (len : BitVec 32) : (goodPacket len).Complete := by
  rw [RxResponse.Complete, if_pos (packetReady_goodPacket len)]
  exact List.length_replicate

/-- The longest odd packet that fits. -/
theorem rxt_in_bounds_of_511 :
    (∃ y, Completes (receivePacket Globals.init.rxt) (goodPacket 511).trace y) ∧
      ∀ y, Completes (receivePacket Globals.init.rxt) (goodPacket 511).trace y →
        ∃ idx, y.dataPtr.stores = idx ++ Globals.init.rxt.stores ∧
          ((∀ j ∈ idx, j < rxtSize) ↔ ¬ ((goodPacket 511).packetReady ∧
            (goodPacket 511).good ∧ rxtSize < (goodPacket 511).len.toNat)) :=
  rxt_in_bounds_iff Globals.init (goodPacket 511) (complete_goodPacket 511)

/-- **A packet of 600 bytes** is accepted and stored past the end of `RXT`. -/
theorem rxt_overrun_of_600 :
    ∃ y, Completes (receivePacket Globals.init.rxt) (goodPacket 600).trace y ∧
      599 ∈ y.dataPtr.stores ∧ ¬ 599 < rxtSize := by
  have hcomplete := complete_goodPacket 600
  obtain ⟨idx, hstores, hmem⟩ := result_stores hcomplete Globals.init.rxt
  refine ⟨_, completes_receivePacket.mpr ⟨_, hcomplete, rfl, rfl⟩, ?_, by decide⟩
  rw [hstores]
  exact List.mem_append_left _ ((hmem 599).mpr ⟨packetReady_goodPacket 600, by decide, by decide⟩)

end FpgaCnc.HelloLed
