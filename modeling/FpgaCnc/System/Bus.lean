import FpgaCnc.System.CommandPath

/-!
# Firmware accesses as clocks of `cnc_module`

The same run seen from the Nios and from the module: an access of
`cnc_module` is one clock on which the strobe, the address and the data are
those of the access, and a read returns what `readdata` becomes on it. Clocks
without a write may come in between, the second clock of a read among them;
accesses of other peripherals take no clock of their own.
-/

namespace FpgaCnc

open Clocked

/-- The accesses `tr` are the clocks `bs` of a module in state `s`. -/
inductive Drives : CncModule → List BusAccess → List CncIn → Prop where
  | done (s : CncModule) : Drives s [] []
  | gap {s : CncModule} {tr : List BusAccess} {b : CncIn} {bs : List CncIn} :
      b.busWrite = none → Drives (s.posedge b) tr bs → Drives s tr (b :: bs)
  | other {s : CncModule} {x : BusAccess} {tr : List BusAccess} {bs : List CncIn} :
      x.addr.base ≠ .cncModule0 → Drives s tr bs → Drives s (x :: tr) bs
  | read {s : CncModule} {k : ℕ} {v : BitVec 32} {tr : List BusAccess} {b : CncIn}
      {bs : List CncIn} : b.strobe = .read → b.address.toNat = k → (s.posedge b).readdata = v →
      Drives (s.posedge b) tr bs → Drives s (.rd ⟨.cncModule0, k⟩ v :: tr) (b :: bs)
  | write {s : CncModule} {k : ℕ} {w : BitVec 32} {tr : List BusAccess} {b : CncIn}
      {bs : List CncIn} : b.busWrite = some (BitVec.ofNat 6 k, w) →
      Drives (s.posedge b) tr bs → Drives s (.wr ⟨.cncModule0, k⟩ w :: tr) (b :: bs)

namespace Drives

variable {s : CncModule} {tr : List BusAccess} {bs : List CncIn}

theorem cncWrites_cons_of_other {x : BusAccess} (h : x.addr.base ≠ .cncModule0) :
    HelloLed.cncWrites (x :: tr) = HelloLed.cncWrites tr := by
  match x with
  | .rd _ _ => rfl
  | .wr ⟨.dm9000a, _⟩ _ | .wr ⟨.ledGreen, _⟩ _ => rfl
  | .wr ⟨.cncModule0, _⟩ _ => exact absurd rfl h

/-- Both sides write the same registers. -/
theorem writes (h : Drives s tr bs) :
    CncModule.writesOf bs = busWrites (HelloLed.cncWrites tr) := by
  induction h with
  | done s => rfl
  | gap hb _ ih =>
      rw [CncModule.writesOf_cons, hb, ih]
      rfl
  | other hx _ ih => rw [ih, cncWrites_cons_of_other hx]
  | @read s k v tr b bs hb _ _ _ ih =>
      have hnone : b.busWrite = none := CncIn.busWrite_eq_none.mpr (by rw [hb]; decide)
      rw [CncModule.writesOf_cons, hnone, ih]
      rfl
  | write hb _ ih =>
      rw [CncModule.writesOf_cons, hb, ih]
      rfl

/-- A run of accesses in two parts is a run of clocks in two parts. -/
theorem split {t₁ t₂ : List BusAccess} (h : Drives s (t₁ ++ t₂) bs) :
    ∃ bs₁ bs₂, bs = bs₁ ++ bs₂ ∧ Drives s t₁ bs₁ ∧
      Drives (run CncModule.posedge s bs₁) t₂ bs₂ := by
  generalize ht : t₁ ++ t₂ = t at h
  induction h generalizing t₁ with
  | done s =>
      obtain ⟨rfl, rfl⟩ := List.append_eq_nil_iff.mp ht
      exact ⟨[], [], rfl, .done s, .done s⟩
  | @gap s tr b bs hb _ ih =>
      obtain ⟨bs₁, bs₂, rfl, h₁, h₂⟩ := ih ht
      exact ⟨b :: bs₁, bs₂, rfl, .gap hb h₁, h₂⟩
  | @other s x tr bs hx hrest ih =>
      cases t₁ with
      | nil =>
          obtain rfl : t₂ = x :: tr := ht
          exact ⟨[], bs, rfl, .done s, .other hx hrest⟩
      | cons y t₁ =>
          obtain ⟨rfl, ht'⟩ := List.cons.inj ht
          obtain ⟨bs₁, bs₂, rfl, h₁, h₂⟩ := ih ht'
          exact ⟨bs₁, bs₂, rfl, .other hx h₁, h₂⟩
  | @read s k v tr b bs hb hk hv hrest ih =>
      cases t₁ with
      | nil =>
          obtain rfl : t₂ = .rd ⟨.cncModule0, k⟩ v :: tr := ht
          exact ⟨[], b :: bs, rfl, .done s, .read hb hk hv hrest⟩
      | cons y t₁ =>
          obtain ⟨rfl, ht'⟩ := List.cons.inj ht
          obtain ⟨bs₁, bs₂, rfl, h₁, h₂⟩ := ih ht'
          exact ⟨b :: bs₁, bs₂, rfl, .read hb hk hv h₁, h₂⟩
  | @write s k w tr b bs hb hrest ih =>
      cases t₁ with
      | nil =>
          obtain rfl : t₂ = .wr ⟨.cncModule0, k⟩ w :: tr := ht
          exact ⟨[], b :: bs, rfl, .done s, .write hb hrest⟩
      | cons y t₁ =>
          obtain ⟨rfl, ht'⟩ := List.cons.inj ht
          obtain ⟨bs₁, bs₂, rfl, h₁, h₂⟩ := ih ht'
          exact ⟨b :: bs₁, bs₂, rfl, .write hb h₁, h₂⟩

/-- **A read returns what the module holds at its clock.** -/
theorem of_mem_read (h : Drives s tr bs) {k : ℕ} {v : BitVec 32}
    (hmem : .rd ⟨.cncModule0, k⟩ v ∈ tr) :
    ∃ pre b post, bs = pre ++ b :: post ∧ b.strobe = .read ∧ b.address.toNat = k ∧
      v = (run CncModule.posedge s pre).readCase b := by
  induction h with
  | done s => exact absurd hmem (by simp)
  | @gap s tr b bs hb _ ih =>
      obtain ⟨pre, c, post, rfl, hc, hk, hv⟩ := ih hmem
      exact ⟨b :: pre, c, post, rfl, hc, hk, hv⟩
  | @other s x tr bs hx _ ih =>
      rcases List.mem_cons.mp hmem with rfl | hmem'
      · exact absurd rfl hx
      · exact ih hmem'
  | @read s k' v' tr b bs hb hk' hv' _ ih =>
      rcases List.mem_cons.mp hmem with heq | hmem'
      · cases heq
        refine ⟨[], b, bs, rfl, hb, hk', ?_⟩
        rw [← hv', CncModule.posedge, hb]
        rfl
      · obtain ⟨pre, c, post, rfl, hc, hk, hv⟩ := ih hmem'
        exact ⟨b :: pre, c, post, rfl, hc, hk, hv⟩
  | @write s k' w tr b bs hb _ ih =>
      rcases List.mem_cons.mp hmem with heq | hmem'
      · cases heq
      · obtain ⟨pre, c, post, rfl, hc, hk, hv⟩ := ih hmem'
        exact ⟨b :: pre, c, post, rfl, hc, hk, hv⟩

/-- The clock of an access of the module, with its inputs at `igpio`. -/
def clockOf (igpio : BitVec 32) : BusAccess → Option CncIn
  | .rd ⟨.cncModule0, k⟩ _ => some ⟨true, true, false, BitVec.ofNat 6 k, 0, igpio⟩
  | .wr ⟨.cncModule0, k⟩ w => some ⟨true, false, true, BitVec.ofNat 6 k, w, igpio⟩
  | _ => none

/-- With the accesses back to back, the module answers the reads so. -/
def answers (igpio : BitVec 32) : CncModule → List BusAccess → Bool
  | _, [] => true
  | s, x :: tr =>
      match x, clockOf igpio x with
      | .rd a v, some b =>
          b.address.toNat == a.off && (s.posedge b).readdata == v && answers igpio (s.posedge b) tr
      | _, some b => answers igpio (s.posedge b) tr
      | _, none => answers igpio s tr

theorem of_answers {igpio : BitVec 32} (h : answers igpio s tr = true) :
    Drives s tr (tr.filterMap (clockOf igpio)) := by
  induction tr generalizing s with
  | nil => exact .done s
  | cons x tr ih =>
      match x with
      | .rd ⟨.cncModule0, k⟩ v =>
          obtain ⟨h₁, hrest⟩ := Bool.and_eq_true_iff.mp h
          obtain ⟨hk, hv⟩ := Bool.and_eq_true_iff.mp h₁
          exact .read rfl (beq_iff_eq.mp hk) (beq_iff_eq.mp hv) (ih hrest)
      | .wr ⟨.cncModule0, k⟩ w => exact .write rfl (ih h)
      | .rd ⟨.dm9000a, _⟩ _ | .rd ⟨.ledGreen, _⟩ _ | .wr ⟨.dm9000a, _⟩ _
      | .wr ⟨.ledGreen, _⟩ _ => exact .other nofun (ih h)

end Drives

end FpgaCnc
