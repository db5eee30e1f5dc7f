import TaskLunev.SuperFifoEffects

/-!
# Every pid is taken once and whole

The connection holds whole pids of readers that wait. A pid goes in when its
reader sends it, and comes out when a writer takes it, so no two writers have
the same pid and no FIFO of a reader is opened twice for sending.
-/
namespace TaskLunev.SuperFifoPairing
open ByteMemory NamedPipe SuperFifoModel SuperFifoEffects TransitionRuns

theorem pidOfBytes_pidBytes (pid : Pid) : pidOfBytes (pidBytes pid) = pid := by
  simp only [pidOfBytes, pidBytes, List.getD_cons_succ, List.getD_cons_zero]
  ext i hi
  simp only [BitVec.getElem_append]
  grind

theorem length_pidBytes (pid : Pid) : (pidBytes pid).length = 4 := rfl

/-- The pids in the connection are `waiting`. -/
structure Pairing (s : State) (waiting : List Pid) : Prop where
  conn : s.conn.buf = waiting.flatMap pidBytes
  nodup : waiting.Nodup
  sent : ∀ r ∈ waiting, hasSent (s.process r) = true
  taken : ∀ w r, takes (s.process w) = some r → hasSent (s.process r) = true ∧ r ∉ waiting
  unique : ∀ w w' r, takes (s.process w) = some r → takes (s.process w') = some r → w = w'
  opened : ∀ w r, (w, r) ∈ s.opened ↔ opens (s.process w) = some r
  exclusive : (s.opened.map Prod.snd).Nodup

theorem start_facts (role : Pid → Option (List Byte)) (p : Pid) :
    hasSent ((State.start role).process p) = false ∧ takes ((State.start role).process p) = none ∧
      opens ((State.start role).process p) = none := by
  unfold State.start
  cases hp : role p with
  | none => simp [hp, hasSent, polled, takes, opens]
  | some file => simp [hp, hasSent, takes, opens]

theorem pairing_start (role : Pid → Option (List Byte)) : Pairing (State.start role) [] where
  conn := rfl
  nodup := List.nodup_nil
  sent r hr := absurd hr List.not_mem_nil
  taken w r hw := by simp [(start_facts role w).2.1] at hw
  unique w _ r hw _ := by simp [(start_facts role w).2.1] at hw
  opened w r := by
    rw [(start_facts role w).2.2]
    exact iff_of_false List.not_mem_nil (by simp)
  exclusive := List.nodup_nil

section
variable {s t : State} {p : Pid} {waiting : List Pid}

/-- A step that sends no pid, takes none and opens no FIFO for sending. -/
theorem Pairing.frame (h : Pairing s waiting)
    (hsent : ∀ q, hasSent (t.process q) = hasSent (s.process q))
    (htakes : ∀ q, takes (t.process q) = takes (s.process q))
    (hopens : ∀ q, opens (t.process q) = opens (s.process q)) (hconn : t.conn.buf = s.conn.buf)
    (hopened : t.opened = s.opened) : Pairing t waiting where
  conn := hconn.trans h.conn
  nodup := h.nodup
  sent r hr := (hsent r).trans (h.sent r hr)
  taken w r hw := by
    rw [hsent r]
    exact h.taken w r ((htakes w).symm.trans hw)
  unique w w' r hw hw' :=
    h.unique w w' r ((htakes w).symm.trans hw) ((htakes w').symm.trans hw')
  opened w r := by
    rw [hopened, hopens w]
    exact h.opened w r
  exclusive := hopened ▸ h.exclusive

/-- The step of one process. -/
theorem Pairing.set (h : Pairing s waiting) {x : Process}
    (hprocess : t.process = Function.update s.process p x)
    (hsent : hasSent x = hasSent (s.process p))
    (htakes : takes x = takes (s.process p)) (hopens : opens x = opens (s.process p))
    (hconn : t.conn.buf = s.conn.buf) (hopened : t.opened = s.opened) : Pairing t waiting := by
  have hset : t.process = (s.set p x).process := hprocess
  refine h.frame (fun q => ?_) (fun q => ?_) (fun q => ?_) hconn hopened
  · rw [hset, set_same _ hsent]
  · rw [hset, set_same _ htakes]
  · rw [hset, set_same _ hopens]

/-- A reader that has not sent its pid joins the ones that wait. -/
theorem Pairing.sendsPid (h : Pairing s waiting) {r : Reader} {conn : Fifo Pid Byte}
    (hp : s.process p = .reader r) (hpc : r.pc = .sending)
    (hconn : conn.buf = s.conn.buf ++ pidBytes p) :
    Pairing ({ s with conn }.set p (.reader { r with pc := .polling })) (waiting ++ [p]) := by
  have hunsent : hasSent (s.process p) = false := by simp [hp, hpc, hasSent, polled]
  have hnot : p ∉ waiting := fun hmem => by simp [h.sent p hmem] at hunsent
  have htakes : ∀ q, takes (({ s with conn }.set p (.reader { r with pc := .polling })).process q) =
      takes (s.process q) := set_same _ (by rw [hp]; rfl)
  have hopens : ∀ q, opens (({ s with conn }.set p (.reader { r with pc := .polling })).process q) =
      opens (s.process q) := set_same _ (by rw [hp]; rfl)
  have hsent : ∀ q, hasSent (s.process q) = true → hasSent
      (({ s with conn }.set p (.reader { r with pc := .polling })).process q) = true := by
    intro q hq
    have hne : q ≠ p := by
      rintro rfl
      simp [hq] at hunsent
    rwa [State.set_of_ne hne]
  constructor
  case conn =>
    change conn.buf = _
    rw [hconn, h.conn, List.flatMap_append, List.flatMap_singleton]
  case nodup =>
    refine List.nodup_append.mpr ⟨h.nodup, by simp, ?_⟩
    rintro q hq _ hq' rfl
    exact hnot (List.mem_singleton.mp hq' ▸ hq)
  case sent =>
    intro q hq
    rcases List.mem_append.mp hq with hq | hq
    · exact hsent q (h.sent q hq)
    · rw [List.mem_singleton.mp hq, State.set_self]
      rfl
  case taken =>
    intro w q hw
    rw [htakes w] at hw
    obtain ⟨hqsent, hq⟩ := h.taken w q hw
    refine ⟨hsent q hqsent, fun hmem => ?_⟩
    rcases List.mem_append.mp hmem with hmem | hmem
    · exact hq hmem
    · rw [List.mem_singleton.mp hmem] at hqsent
      simp [hqsent] at hunsent
  case unique =>
    intro w w' q hw hw'
    rw [htakes] at hw hw'
    exact h.unique w w' q hw hw'
  case opened =>
    intro w q
    rw [hopens w]
    exact h.opened w q
  case exclusive => exact h.exclusive

/-- A read of four bytes from the connection is the pid in front. -/
theorem Pairing.front (h : Pairing s waiting) {bytes : List Byte} {conn : Fifo Pid Byte}
    (hread : s.conn.read 4 = some (bytes, conn)) (hbytes : bytes ≠ []) :
    ∃ r rest, waiting = r :: rest ∧ pidOfBytes bytes = r ∧ conn.buf = rest.flatMap pidBytes := by
  obtain ⟨htake, rfl, -⟩ := Fifo.read_eq_some hread
  rw [h.conn] at htake
  cases waiting with
  | nil => exact absurd htake hbytes
  | cons r rest =>
      rw [List.flatMap_cons, ← length_pidBytes r, List.take_left] at htake
      refine ⟨r, rest, rfl, by rw [htake, pidOfBytes_pidBytes], ?_⟩
      change s.conn.buf.drop 4 = _
      rw [h.conn, List.flatMap_cons, ← length_pidBytes r, List.drop_left]

/-- A writer takes the pid in front. -/
theorem Pairing.takesPid (h : Pairing s waiting) {w : Writer} {bytes : List Byte}
    {conn : Fifo Pid Byte} (hp : s.process p = .writer w) (hpc : w.pc = .readingPid)
    (hread : s.conn.read 4 = some (bytes, conn)) (hbytes : bytes ≠ []) :
    Pairing ({ s with conn }.set p
      (.writer { w with pc := .openingReader, pid_r := pidOfBytes bytes })) waiting.tail := by
  obtain ⟨r, rest, rfl, hpid, hconn⟩ := h.front hread hbytes
  rw [hpid, List.tail_cons]
  obtain ⟨hfront, hrest⟩ := List.nodup_cons.mp h.nodup
  have hsent : ∀ q, hasSent (({ s with conn }.set p
      (.writer { w with pc := .openingReader, pid_r := r })).process q) =
      hasSent (s.process q) := set_same _ (by rw [hp]; rfl)
  have hopens : ∀ q, opens (({ s with conn }.set p
      (.writer { w with pc := .openingReader, pid_r := r })).process q) =
      opens (s.process q) := set_same _ (by rw [hp]; simp [opens, hpc])
  have htakes : ∀ q q', takes (({ s with conn }.set p
      (.writer { w with pc := .openingReader, pid_r := r })).process q) = some q' →
      q = p ∧ q' = r ∨ q ≠ p ∧ takes (s.process q) = some q' := by
    intro q q' hq
    by_cases hqp : q = p
    · subst hqp
      rw [State.set_self] at hq
      exact .inl ⟨rfl, (Option.some.inj hq).symm⟩
    · rw [State.set_of_ne hqp] at hq
      exact .inr ⟨hqp, hq⟩
  constructor
  case conn => exact hconn
  case nodup => exact hrest
  case sent =>
    intro q hq
    rw [hsent q]
    exact h.sent q (List.mem_cons_of_mem r hq)
  case taken =>
    intro q q' hq
    rw [hsent q']
    rcases htakes q q' hq with ⟨-, rfl⟩ | ⟨-, hq⟩
    · exact ⟨h.sent q' List.mem_cons_self, hfront⟩
    · obtain ⟨hqsent, hmem⟩ := h.taken q q' hq
      exact ⟨hqsent, fun hmem' => hmem (List.mem_cons_of_mem r hmem')⟩
  case unique =>
    intro q q' q'' hq hq'
    rcases htakes q q'' hq with ⟨hqp, heq⟩ | ⟨-, hq⟩
    · rcases htakes q' q'' hq' with ⟨hqp', -⟩ | ⟨-, hq'⟩
      · rw [hqp, hqp']
      · exact absurd (heq ▸ List.mem_cons_self) (h.taken q' q'' hq').2
    · rcases htakes q' q'' hq' with ⟨-, heq⟩ | ⟨-, hq'⟩
      · exact absurd (heq ▸ List.mem_cons_self) (h.taken q q'' hq).2
      · exact h.unique q q' q'' hq hq'
  case opened =>
    intro q q'
    rw [hopens q]
    exact h.opened q q'
  case exclusive => exact h.exclusive

/-- The pid of an open for sending was taken by nobody else. -/
theorem Pairing.unopened (h : Pairing s waiting) {w : Writer} (hp : s.process p = .writer w)
    (hpc : w.pc = .openingReader) (q : Pid) : opens (s.process q) ≠ some w.pid_r := by
  intro hq
  have htakes : takes (s.process p) = some w.pid_r := by simp [hp, hpc, takes]
  obtain rfl := h.unique q p w.pid_r (opens_takes hq) htakes
  simp [hp, hpc, opens] at hq

theorem Pairing.opensReader (h : Pairing s waiting) {w : Writer} {fifo : Fifo Pid Byte}
    (hp : s.process p = .writer w) (hpc : w.pc = .openingReader) :
    Pairing (({ s with opened := s.opened ++ [(p, w.pid_r)] }.setPers w.pid_r fifo).set p
      (.writer { w with pc := .greeting })) waiting := by
  have hunopened := h.unopened hp hpc
  have hself : opens (s.process p) = none := by simp [hp, hpc, opens]
  have hsent : ∀ q, hasSent ((s.set p (.writer { w with pc := .greeting })).process q) =
      hasSent (s.process q) := set_same _ (by rw [hp]; rfl)
  have htakes : ∀ q, takes ((s.set p (.writer { w with pc := .greeting })).process q) =
      takes (s.process q) := set_same _ (by rw [hp]; simp [takes, hpc])
  constructor
  case conn => exact h.conn
  case nodup => exact h.nodup
  case sent => exact fun q hq => (hsent q).trans (h.sent q hq)
  case taken =>
    intro q r hq
    obtain ⟨hrsent, hr⟩ := h.taken q r ((htakes q).symm.trans hq)
    exact ⟨(hsent r).trans hrsent, hr⟩
  case unique =>
    exact fun q q' r hq hq' =>
      h.unique q q' r ((htakes q).symm.trans hq) ((htakes q').symm.trans hq')
  case opened =>
    intro q r
    change (q, r) ∈ s.opened ++ [(p, w.pid_r)] ↔
      opens ((s.set p (.writer { w with pc := .greeting })).process q) = some r
    rw [List.mem_append, List.mem_singleton, Prod.mk.injEq, h.opened]
    by_cases hq : q = p
    · subst hq
      rw [State.set_self, hself]
      simp [opens, eq_comm]
    · rw [State.set_of_ne hq]
      simp [hq]
  case exclusive =>
    change ((s.opened ++ [(p, w.pid_r)]).map Prod.snd).Nodup
    rw [List.map_append, List.nodup_append]
    refine ⟨h.exclusive, by simp, ?_⟩
    rintro r hr _ hr' rfl
    obtain ⟨⟨q, r⟩, hmem, rfl⟩ := List.mem_map.mp hr
    have heq : r = w.pid_r := by simpa using hr'
    exact hunopened q (heq ▸ (h.opened q r).mp hmem)

/-- The pids in the connection stay, or everybody has closed it. -/
theorem Pairing.closesConn (h : Pairing s waiting) {conn : Fifo Pid Byte}
    (hconn : conn.buf = s.conn.buf ∨ conn.buf = []) :
    ∃ waiting', Pairing { s with conn } waiting' := by
  rcases hconn with hconn | hconn
  · exact ⟨waiting, h.frame (fun _ => rfl) (fun _ => rfl) (fun _ => rfl) hconn rfl⟩
  · exact ⟨[], hconn, List.nodup_nil, fun r hr => absurd hr List.not_mem_nil,
      fun w r hw => ⟨(h.taken w r hw).1, List.not_mem_nil⟩, h.unique, h.opened, h.exclusive⟩

/-- What a step makes of the pids in the connection. -/
theorem Pairing.effect (h : Pairing s waiting) (ht : Effect s t) :
    ∃ waiting', Pairing t waiting' := by
  cases ht with
  | quiet hagrees hconn hpers hopened _ =>
      exact ⟨waiting, h.frame (fun q => (hagrees q).sent) (fun q => (hagrees q).takes)
        (fun q => (hagrees q).opens) hconn hopened⟩
  | opensPers hp hpc =>
      exact ⟨waiting, h.set rfl (by simp [hp, hpc, hasSent, polled]) (by rw [hp]; rfl)
        (by rw [hp]; rfl) rfl rfl⟩
  | sendsPid hp hpc hconn => exact ⟨_, h.sendsPid hp hpc hconn⟩
  | polls hp hpc _ =>
      exact ⟨waiting, h.set rfl (by simp [hp, hpc, hasSent, polled]) (by rw [hp]; rfl)
        (by rw [hp]; rfl) rfl rfl⟩
  | greets hp _ hpc _ =>
      exact ⟨waiting, h.set rfl (by simp [hp, hpc, hasSent, polled]) (by rw [hp]; rfl)
        (by rw [hp]; rfl) rfl rfl⟩
  | receives hp _ hpc _ =>
      exact ⟨waiting, h.set rfl (by simp [hp, hpc, hasSent, polled]) (by rw [hp]; rfl)
        (by rw [hp]; rfl) rfl rfl⟩
  | takesPid hp hpc hread hbytes => exact ⟨_, h.takesPid hp hpc hread hbytes⟩
  | opensReader hp hpc => exact ⟨waiting, h.opensReader hp hpc⟩
  | transmits _ _ _ _ hsent htakes hopens _ _ _ =>
      exact ⟨waiting, h.set rfl hsent htakes hopens rfl rfl⟩
  | closesConn hconn => exact h.closesConn hconn
  | closesRead _ =>
      exact ⟨waiting, h.frame (fun _ => rfl) (fun _ => rfl) (fun _ => rfl) rfl rfl⟩
  | closesWrite _ =>
      exact ⟨waiting, h.frame (fun _ => rfl) (fun _ => rfl) (fun _ => rfl) rfl rfl⟩

end

end TaskLunev.SuperFifoPairing
