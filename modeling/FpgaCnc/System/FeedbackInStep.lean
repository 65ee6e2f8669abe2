import FpgaCnc.System.ExactlyOnce

/-!
# Feedback in step with the commands

The accesses of the board are those of its handler runs, one behind the other.
A run that answers a command reads the registers of `cnc_module` before it
writes any; so what a reply says is what the module held after the commands
before it had been carried out, and before this one was.

§1 the runs in the log · §2 the log of the board · §3 the run of a reply · §4
feedback in step.
-/

namespace FpgaCnc.Delivery

open IoProg Dm9000a HelloLed Clocked RxSide

/-! ## §1  The runs in the log -/

/-- The accesses of one run of the handler, and what it has sent. -/
inductive Segment : List (List (BitVec 8)) → List BusAccess → Prop where
  | quiet {tr : List BusAccess} : (∀ x ∈ tr, nicAccess x) → Segment [] tr
  | command {g : Globals} {v : ℕ → BitVec 32} {before : List BusAccess} {vs : List (BitVec 32)}
      {u : BitVec 32} : HasHeader g.txt → (∀ x ∈ before, nicAccess x) → Tx.Sends before [] →
      (∀ z ∈ vs, txDone z = false) → txDone u = true →
      Segment [replyFrame g v] (before ++ commandTrace g v (vs ++ [u]))
  | reject {g : Globals} {tr : List BusAccess} : (∀ x ∈ tr, nicAccess x) →
      Segment [shortReply g] tr

/-- **Every run of the handler** is one of these. -/
theorem segment_of_run {g g' : Globals} {tr : List BusAccess}
    (h : Completes (ethernetInterrupts g) tr g') (htxt : HasHeader g.txt) :
    ∃ fs, Segment fs tr ∧ Tx.Sends tr fs := by
  obtain ⟨inter, ⟨-, rfl, -⟩ | ⟨-, a, ha, t, rfl, hrest⟩⟩ := completes_ethernetInterrupts.mp h
  · exact ⟨[], .quiet (nic_isrTrace inter), Tx.sends_isrTrace inter⟩
  · rw [← List.append_assoc]
    have hfirst : ∀ x ∈ isrTrace inter ++ a.trace, nicAccess x := by
      intro x hx
      rcases List.mem_append.mp hx with hx' | hx'
      · exact nic_isrTrace inter x hx'
      · exact nic_trace g.rxt ha x hx'
    have hsilent := Tx.sends_reception inter a
    unfold afterReceive at hrest
    split_ifs at hrest with hcmd
    · obtain ⟨v, vs, u, hvs, hu, rfl, -⟩ := (completes_answerCommand hcmd).mp hrest
      refine ⟨_, .command htxt hfirst hsilent hvs hu, hsilent.append ?_⟩
      intro t ht
      exact Tx.run_commandTrace ht _ v vs u
    · refine ⟨[shortReply (g.received (a.result g.rxt))], .reject ?_, hsilent.append ?_⟩
      · intro x hx
        rcases List.mem_append.mp hx with hx' | hx'
        · exact hfirst x hx'
        · exact (only_rejectFrame _).exec hrest x hx'
      · obtain ⟨vs, u, -, -, rfl, -⟩ := completes_rejectFrame.mp hrest
        intro t ht
        exact Tx.run_txTrace ht _ (show (14#32).toNat < 2 ^ 16 by decide) vs u

/-- Run after run. -/
inductive Logged : List (List (BitVec 8)) → List BusAccess → Prop where
  | nil : Logged [] []
  | snoc {fs fs' : List (List (BitVec 8))} {log seg : List BusAccess} :
      Logged fs log → Segment fs' seg → Logged (fs ++ fs') (log ++ seg)

/-! ## §2  The log of the board -/

/-- While the handler runs, the log ends in a part of a run. -/
inductive LogInv : Board → Prop where
  | idle {b : Board} : b.handler = none → Logged b.chip.nic.tx.sent b.log → LogInv b
  | serving {b : Board} {c : Chip} {log tr : List BusAccess} {p : Fw Globals} :
      b.handler = some p → Logged c.nic.tx.sent log → c.nic.tx.data = [] →
      exec (ethernetInterrupts b.loop.g) tr = some p → Trace device c tr b.chip →
      b.log = log ++ tr → LogInv b

theorem hasHeader_of_reachable {b : Board} (h : Reachable b) : HasHeader b.loop.g.txt := by
  cases inv_of_reachable h with
  | idle hserver hloop _ _ => exact hloop ▸ hserver.hasHeader
  | serving hserver hloop _ _ _ _ _ _ => exact hloop ▸ hserver.hasHeader

theorem data_of_idle {b : Board} (h : Reachable b) (hidle : b.handler = none) :
    b.chip.nic.tx.data = [] := by
  cases inv_of_reachable h with
  | idle _ _ hmatch _ => exact hmatch.data
  | serving _ _ _ _ hp _ _ _ => exact absurd (hidle.symm.trans hp) (by simp)

theorem logInv_step {b b' : Board} (hb : Reachable b) (h : LogInv b) (hs : Step b b') :
    LogInv b' := by
  cases h with
  | idle hidle hlog =>
      cases hs with
      | arrive r _ => exact .idle hidle hlog
      | main _ => exact .idle hidle hlog
      | uart _ _ _ => exact .idle hidle hlog
      | irq _ _ =>
          exact .serving rfl hlog (data_of_idle hb hidle) (exec_nil _) (.nil _)
            (List.append_nil _).symm
      | access hp _ _ => exact absurd (hidle.symm.trans hp) (by simp)
      | done hp => exact absurd (hidle.symm.trans hp) (by simp)
  | @serving c log tr p hp hlog hdata hexec htrace hsplit =>
      cases hs with
      | arrive r hr => exact .serving hp hlog hdata hexec (htrace.moved ⟨r, hr, rfl⟩) hsplit
      | main hidle => exact absurd (hidle.symm.trans hp) (by simp)
      | uart _ _ hidle => exact absurd (hidle.symm.trans hp) (by simp)
      | irq hidle _ => exact absurd (hidle.symm.trans hp) (by simp)
      | @access q q' x c' hq hstep hacc =>
          obtain rfl : p = q := Option.some.inj (hp.symm.trans hq)
          refine .serving rfl hlog hdata (exec_snoc hexec hstep) (htrace.snoc hacc) ?_
          show b.log ++ [x] = _
          rw [hsplit, List.append_assoc]
      | @done g hq =>
          obtain rfl : p = ret g := Option.some.inj (hp.symm.trans hq)
          obtain ⟨fs, hseg, hsends⟩ := segment_of_run hexec (hasHeader_of_reachable hb)
          apply LogInv.idle rfl
          show Logged b.chip.nic.tx.sent b.log
          rw [trace_tx htrace, (hsends c.nic.tx hdata).2, hsplit]
          exact hlog.snoc hseg

theorem logInv_of_reachable {b : Board} (h : Reachable b) : LogInv b := by
  induction h with
  | boot n m hfresh _ =>
      apply LogInv.idle rfl
      show Logged n.tx.sent []
      rw [hfresh.sent]
      exact .nil
  | step hb hs ih => exact logInv_step hb ih hs

/-! ## §3  The run of a reply -/

/-- A run sends one frame at most. -/
theorem Segment.single {fs : List (List (BitVec 8))} {seg : List BusAccess} (h : Segment fs seg)
    {n : ℕ} {f : List (BitVec 8)} (hf : fs[n]? = some f) : fs = [f] ∧ n = 0 := by
  have hlt := (List.getElem?_eq_some_iff.mp hf).1
  cases h with
  | quiet _ => exact absurd hlt (by simp)
  | command _ _ _ _ _ | reject _ =>
      obtain rfl : n = 0 := by simpa using hlt
      exact ⟨congrArg (fun x => [x]) (Option.some.inj hf), rfl⟩

/-- The run that has sent the frame at a place, and the runs before it. -/
theorem Logged.split {fs : List (List (BitVec 8))} {log : List BusAccess} (h : Logged fs log)
    {j : ℕ} {f : List (BitVec 8)} (hf : fs[j]? = some f) :
    ∃ before seg after, log = before ++ (seg ++ after) ∧ Logged (fs.take j) before ∧
      Segment [f] seg := by
  induction h with
  | nil => exact absurd hf (by simp)
  | @snoc fs fs' log seg hlog hseg ih =>
      rcases Nat.lt_or_ge j fs.length with hlt | hge
      · rw [List.getElem?_append_left hlt] at hf
        obtain ⟨before, seg', after, rfl, hbefore, hseg'⟩ := ih hf
        refine ⟨before, seg', after ++ seg, by simp, ?_, hseg'⟩
        rwa [List.take_append_of_le_length hlt.le]
      · rw [List.getElem?_append_right hge] at hf
        obtain ⟨rfl, hzero⟩ := hseg.single hf
        obtain rfl : j = fs.length := by omega
        refine ⟨log, seg, [], by rw [List.append_nil], ?_, hseg⟩
        rwa [List.take_left]

/-- The log has the reads of the reply `f`, and in front of the run they are in
the runs that have sent the frames before it. -/
def ReadsOf (log : List BusAccess) (fs : List (List (BitVec 8))) (f : List (BitVec 8)) : Prop :=
  ∃ (before front : List BusAccess) (g : Globals) (v : ℕ → BitVec 32) (rest : List BusAccess),
    log = before ++ (front ++ (readsTrace v ++ rest)) ∧ Logged fs before ∧
      (∀ x ∈ front, nicAccess x) ∧ HasHeader g.txt ∧ f = replyFrame g v

theorem ReadsOf.append {log : List BusAccess} {fs : List (List (BitVec 8))} {f : List (BitVec 8)}
    (h : ReadsOf log fs f) (tr : List BusAccess) : ReadsOf (log ++ tr) fs f := by
  obtain ⟨before, front, g, v, rest, rfl, hbefore, hnic, htxt, hf⟩ := h
  exact ⟨before, front, g, v, rest ++ tr, by simp, hbefore, hnic, htxt, hf⟩

/-- A frame that is no reply is not read for. -/
theorem isReplyFrame_shortReply (g : Globals) : isReplyFrame (shortReply g) = false :=
  Bool.and_false _

theorem Logged.readsOf {fs : List (List (BitVec 8))} {log : List BusAccess} (h : Logged fs log)
    {j : ℕ} {f : List (BitVec 8)} (hf : fs[j]? = some f) (hreply : isReplyFrame f = true) :
    ReadsOf log (fs.take j) f := by
  obtain ⟨before, seg, after, rfl, hbefore, hseg⟩ := h.split hf
  cases hseg with
  | @command g v front vs u htxt hnic _ _ _ =>
      obtain ⟨rest, hrest⟩ : ∃ rest, commandTrace g v (vs ++ [u]) = readsTrace v ++ rest := ⟨_, rfl⟩
      refine ⟨before, front, g, v, rest ++ after, ?_, hbefore, hnic, htxt, rfl⟩
      rw [hrest, List.append_assoc front, List.append_assoc (readsTrace v)]
  | @reject g _ _ => exact absurd ((isReplyFrame_shortReply g).symm.trans hreply) (by decide)

/-- A part of a run that has sent the reply has made the reads. -/
theorem reads_of_part {t : Tx} (hdata : t.data = []) {front tr tr' rest : List BusAccess}
    {v : ℕ → BitVec 32} (hfront : Tx.Sends front [])
    (hsplit : tr ++ tr' = front ++ (readsTrace v ++ rest)) (hsent : (t.run tr).sent ≠ t.sent) :
    ∃ rest', tr = front ++ (readsTrace v ++ rest') := by
  rw [← List.append_assoc] at hsplit
  rcases List.append_eq_append_iff.mp hsplit with ⟨more, hmore, -⟩ | ⟨rest', hrest', -⟩
  · -- up to the end of the reads nothing is sent
    have hreads : Tx.Sends (readsTrace v) [] := by
      intro t ht
      rw [Tx.run_of_not_nic fun x hx => ?_, List.append_nil]
      · exact ⟨ht, rfl⟩
      · obtain ⟨k, -, rfl⟩ := List.mem_map.mp hx
        exact not_nic_of_cnc rfl
    obtain ⟨-, hnone⟩ := (hfront.append hreads) t hdata
    rw [hmore] at hnone
    obtain ⟨first, hfirst, hsame⟩ := sent_of_part hnone
    rw [List.append_nil, List.prefix_nil] at hfirst
    rw [hfirst, List.append_nil] at hsame
    exact absurd hsame hsent
  · exact ⟨rest', by rw [hrest', List.append_assoc]⟩

/-- **The reads of a reply**, at any moment after it has been sent. -/
theorem readsOf_of_reachable {b : Board} (h : Reachable b) {j : ℕ} {f : List (BitVec 8)}
    (hf : b.chip.nic.tx.sent[j]? = some f) (hreply : isReplyFrame f = true) :
    ReadsOf b.log (b.chip.nic.tx.sent.take j) f := by
  cases logInv_of_reachable h with
  | idle _ hlog => exact hlog.readsOf hf hreply
  | @serving c log tr p _ hlog hdata hexec htrace hsplit =>
      obtain ⟨tr', g', hrun⟩ := (canReturn_ethernetInterrupts b.loop.g).extend hexec
      obtain ⟨fs, hseg, hsends⟩ := segment_of_run hrun (hasHeader_of_reachable h)
      obtain ⟨first, hfirst, hsent⟩ := sent_of_part (hsends c.nic.tx hdata).2
      rw [← trace_tx htrace] at hsent
      rw [hsent] at hf ⊢
      rcases Nat.lt_or_ge j c.nic.tx.sent.length with hlt | hge
      · rw [List.getElem?_append_left hlt] at hf
        rw [List.take_append_of_le_length hlt.le, hsplit]
        exact (hlog.readsOf hf hreply).append tr
      · -- the reply of the run under way
        rw [List.getElem?_append_right hge] at hf
        have hlt := (List.getElem?_eq_some_iff.mp hf).1
        obtain ⟨more, rfl⟩ := hfirst
        obtain ⟨hone, hzero⟩ :=
          hseg.single ((List.getElem?_append_left hlt).trans hf)
        have hnew : b.chip.nic.tx.sent ≠ c.nic.tx.sent := by
          rw [hsent]
          intro heq
          have hlength := congrArg List.length heq
          rw [List.length_append] at hlength
          omega
        rw [trace_tx htrace] at hnew
        obtain rfl : j = c.nic.tx.sent.length := by omega
        rw [List.take_left, hsplit]
        rw [hone] at hseg
        generalize hall : tr ++ tr' = all at hseg
        cases hseg with
        | @command g v front vs u htxt hnic hfront _ _ =>
            obtain ⟨rest', rfl⟩ := reads_of_part hdata hfront hall hnew
            exact ⟨log, front, g, v, rest', rfl, hlog, hnic, htxt, rfl⟩
        | @reject g _ _ => exact absurd ((isReplyFrame_shortReply g).symm.trans hreply) (by decide)

/-- A reply makes nine writes, and nothing else makes any. -/
theorem Segment.length_cncWrites {fs : List (List (BitVec 8))} {seg : List BusAccess}
    (h : Segment fs seg) : (cncWrites seg).length = 9 * fs.countP isReplyFrame := by
  cases h with
  | quiet hnic => rw [cncWrites_of_nic hnic]; rfl
  | @command g v before vs u htxt hnic _ hvs hu =>
      have hreply : isReplyFrame (replyFrame g v) = true := by
        have h := De2.isReply_replyFrame htxt v []
        rwa [List.append_nil] at h
      rw [cncWrites_append, cncWrites_of_nic hnic, commandTrace, cncWrites_append, cncWrites_append,
        cncWrites_append, cncWrites_readsTrace, cncWrites_txTrace _ _ hvs hu, cncWrites_regTrace,
        List.countP_cons_of_pos hreply]
      rfl
  | @reject g tr hnic =>
      have hother : isReplyFrame (shortReply g) = false := Bool.and_false _
      rw [cncWrites_of_nic hnic, List.countP_cons_of_neg (by simp [hother])]
      rfl

theorem Logged.length_cncWrites {fs : List (List (BitVec 8))} {log : List BusAccess}
    (h : Logged fs log) : (cncWrites log).length = 9 * fs.countP isReplyFrame := by
  induction h with
  | nil => rfl
  | snoc _ hseg ih =>
      rw [cncWrites_append, List.length_append, ih, hseg.length_cncWrites, List.countP_append,
        Nat.mul_add]

theorem length_payload (rs : List RxRecord) :
    (payload rs).length = 9 * rs.countP hasCommandType := by
  rw [payload, List.countP_eq_length_filter]
  induction rs.filter hasCommandType with
  | nil => rfl
  | cons r rs ih =>
      rw [List.flatMap_cons, List.length_append, ih, List.length_cons, Nat.mul_succ, Nat.add_comm]
      rfl

theorem countP_of_answers {rs : List RxRecord} {fs : List (List (BitVec 8))}
    (h : List.Forall₂ Answer rs fs) (hplain : ∀ r ∈ rs, Plain r) :
    fs.countP isReplyFrame = rs.countP hasCommandType := by
  induction h with
  | nil => rfl
  | @cons r f rs fs hanswer _ ih =>
      have hkind := hanswer.isReplyFrame_eq (hplain r List.mem_cons_self) []
      rw [List.append_nil] at hkind
      rw [List.countP_cons, List.countP_cons, hkind,
        ih fun q hq => hplain q (List.mem_cons_of_mem r hq)]

/-! ## §4  Feedback in step -/

section InStep

variable {b : Board}

/-- What has been written before the run of a reply: the commands before it. -/
theorem cncWrites_before (h : Reachable b) (hplain : ∀ r ∈ b.chip.arrived, Plain r)
    {before rest : List BusAccess} (hlog : b.log = before ++ rest) {j : ℕ}
    (hj : j ≤ b.chip.nic.tx.sent.length) (hbefore : Logged (b.chip.nic.tx.sent.take j) before) :
    cncWrites before = payload (b.chip.arrived.take j) := by
  have hfirst : cncWrites before <+: payload b.chip.arrived := by
    refine List.IsPrefix.trans ?_ (cncWrites_first h hplain)
    rw [hlog, cncWrites_append]
    exact List.prefix_append _ _
  have hfirst' : payload (b.chip.arrived.take j) <+: payload b.chip.arrived :=
    payload_mono (List.take_prefix j _)
  -- both are as long as there are commands among the first `j`
  have hlength : (cncWrites before).length = (payload (b.chip.arrived.take j)).length := by
    obtain ⟨done, waiting, harrived, hanswers⟩ := answers_of_board h
    have htake : b.chip.arrived.take j = done.take j := by
      rw [harrived, List.take_append_of_le_length (hanswers.length_eq ▸ hj)]
    rw [hbefore.length_cncWrites, length_payload, htake]
    congr 1
    apply countP_of_answers (List.forall₂_take j hanswers)
    intro r hr
    exact hplain r (harrived ▸ List.mem_append_left _ (List.mem_of_mem_take hr))
  exact (List.prefix_of_prefix_length_le hfirst hfirst' hlength.le).eq_of_length hlength

/-- **Feedback in step with the commands.** As long as no frame arrives with
errors or cut short, whatever clocks the accesses of the handlers take: for
every reply sent so far there is a moment at which the writes made are those of
the commands that arrived before its own, all of them and no others; so the
register file is that of the last of these; and the reply brings to the pins
what the module held from this moment on and before the next write. -/
theorem feedback_in_step (h : Reachable b) (hplain : ∀ r ∈ b.chip.arrived, Plain r)
    {s : CncModule} {bs : List CncIn} (hbus : Drives s b.log bs) {j : ℕ} {f : List (BitVec 8)}
    (hf : b.chip.nic.tx.sent[j]? = some f) (hreply : isReplyFrame f = true) :
    ∃ before after x, bs = before ++ after ∧
      CncModule.writesOf before = busWrites (payload (b.chip.arrived.take j)) ∧
      (run CncModule.posedge s before).ctl = commanded s.ctl (b.chip.arrived.take j) ∧
      HeldBefore (run CncModule.posedge s before) after x ∧
      ∃ igpio2316 igpio3124, Feedback igpio2316 igpio3124 x f := by
  obtain ⟨before, front, g, v, rest, hlog, hbefore, hnic, htxt, rfl⟩ :=
    readsOf_of_reachable h hf hreply
  have hj := (List.getElem?_eq_some_iff.mp hf).1
  have hwrites := cncWrites_before h hplain hlog hj.le hbefore
  rw [hlog] at hbus
  obtain ⟨bs₁, bs₂, rfl, h₁, h₂⟩ := hbus.split
  have hmade : CncModule.writesOf bs₁ = busWrites (payload (b.chip.arrived.take j)) := by
    rw [h₁.writes, hwrites]
  refine ⟨bs₁, bs₂, _, rfl, hmade, ?_, heldBefore_of_drives hnic h₂, _, _,
    feedback_replyFrame htxt v⟩
  rw [CncModule.ctl_run, hmade, writes_payload]

end InStep

end FpgaCnc.Delivery
