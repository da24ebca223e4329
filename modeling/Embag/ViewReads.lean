import Mathlib.Algebra.Order.BigOperators.Group.List
import Embag.ViewSchemas

/-! Iterating comes to its end without an exception where the bags can be read: every message
still to come has a connection, and its topic a schema. -/

namespace Embag

def Bag.Returns (bag : Bag) (c : CurrentMessage) : Prop :=
  ∃ connection d, bag.connections[c.connectionId]? = some connection ∧
    bag.schemaOf connection.topic = .ok d

theorem Bag.SchemataSound.msgDefForTopic_ok {bag : Bag} (leftFirst : Bool) {topic : Bytes} {d : MsgDef}
    (h : bag.SchemataSound) (hd : bag.schemaOf topic = .ok d) :
    ∃ bag', bag.msgDefForTopic leftFirst topic = (bag', .ok (some d)) := by
  rcases hlookup : bag.msgDefForTopic leftFirst topic with ⟨bag', e | schema⟩
  · exfalso
    rw [Bag.msgDefForTopic] at hlookup
    rcases hcached : bag.messageSchemata.lookup topic with _ | schema
    · simp only [hcached] at hlookup
      rcases hparse : bag.parseMsgDefForTopic leftFirst topic with ⟨bag'', e' | ⟨⟩⟩
      · rcases parseMsgDefForTopic_cases hparse with ⟨_, _, hr, _⟩ | ⟨e'', he, _⟩
        · cases hr
        · rw [hd] at he
          cases he
      · simp [hparse] at hlookup
    · simp [hcached] at hlookup
  · have hschema := (h.msgDefForTopic hlookup).2 schema rfl
    rw [hd] at hschema
    exact ⟨bag', by rw [hschema]; rfl⟩

section Ok

variable {env : Env} {files : List Bag} {wrapperOf : ℕ → Option ℕ} {world : World}
  {queue todo : List ℕ} {pending : ℕ → List CurrentMessage} {b p : ℕ}

theorem Merging.exists_readMessage (h : Merging files wrapperOf world queue)
    (hb : wrapperOf b = some p) (hp : p ∈ todo)
    (hpending : Pending env.codecs files wrapperOf world queue todo pending) :
    ∃ world' queue', world.readMessage env p queue = (world', .ok queue') := by
  obtain ⟨w, file, hw, hscan, hfile, hsound⟩ := h.wrapper hb
  have hremaining := hpending.some hb hw hfile
  rw [Unread, if_pos hp] at hremaining
  obtain ⟨bag, hbag, rfl⟩ := exists_bag_of_files h.files_eq hfile
  rw [World.readMessage, hw]
  simp only [hscan, hbag]
  rcases hread : w.scan.readMessage bag env.codecs with ⟨scan, e | _ | current⟩
  · rw [← readMessage_file] at hread
    exact absurd hremaining (Scan.gives_of_readMessage hsound hread _)
  · exact ⟨_, _, rfl⟩
  · exact ⟨_, _, rfl⟩

theorem Merging.exists_beginLoop {ps : List ℕ} (h : Merging files wrapperOf world queue)
    (hnodup : ps.Nodup) (hnew : ∀ p ∈ ps, p ∉ queue) (hmem : ∀ p ∈ ps, ∃ b, wrapperOf b = some p)
    (hfront : ∀ p ∈ ps, ∀ w, world.wrappers[p]? = some w → w.scan.chunkIter = 0)
    (hpending : Pending env.codecs files wrapperOf world queue ps pending) :
    ∃ world' queue', world.beginLoop env ps queue = (world', .ok queue') := by
  induction ps generalizing world queue with
  | nil => exact ⟨_, _, rfl⟩
  | cons p ps ih =>
    obtain ⟨b, hb⟩ := hmem p List.mem_cons_self
    obtain ⟨w, _, hw, -⟩ := h.wrapper hb
    have hp := List.nodup_cons.1 hnodup
    have hpq := hnew p List.mem_cons_self
    obtain ⟨world₁, queue₁, hread⟩ := h.exists_readMessage hb List.mem_cons_self hpending
    obtain ⟨hnext, ⟨hother, hqueue⟩, -⟩ := h.readMessage hb hpq hread
    have hne : ∀ q ∈ ps, q ≠ p := by
      rintro q hq rfl
      exact hp.1 hq
    obtain ⟨world', queue', hloop⟩ := ih hnext hp.2
      (fun q hq => by rw [hqueue q (hne q hq)]; exact hnew q (List.mem_cons_of_mem _ hq))
      (fun q hq => hmem q (List.mem_cons_of_mem _ hq))
      (fun q hq w hw => by
        rw [hother q (hne q hq)] at hw
        exact hfront q (List.mem_cons_of_mem _ hq) w hw)
      ((h.pending_readMessage hb hpq hp.1 hread).2 hpending)
    refine ⟨world', queue', ?_⟩
    rw [World.beginLoop, World.resetIter_eq hw (hfront p List.mem_cons_self w hw), hread]
    exact hloop

theorem Merging.exists_deref (env : Env) {it : Iterator} (h : Merging files wrapperOf world it.msgQueue)
    (hsound : world.SchemataSound) (hqueue : it.msgQueue = p :: queue) (hb : wrapperOf b = some p)
    {w : BagWrapper} {file : Bag} (hw : world.wrappers[p]? = some w) (hfile : files[b]? = some file)
    (hreturns : file.Returns w.current) :
    ∃ world' m, it.deref env world = (world', .ok m) := by
  obtain ⟨w', _, hw', hscan, -⟩ := h.wrapper hb
  rw [hw] at hw'
  cases hw'
  obtain ⟨bag, hbag, rfl⟩ := exists_bag_of_files h.files_eq hfile
  obtain ⟨connection, d, hconnection, hd⟩ := hreturns
  obtain ⟨bag', hlookup⟩ := (hsound bag (List.mem_of_getElem? hbag)).msgDefForTopic_ok
    env.leftFirst hd
  have hconnection' : bag.connections[w.current.connectionId]? = some connection := hconnection
  rw [Iterator.deref, hqueue]
  simp only [hw, hscan, hbag, hconnection', hlookup]
  exact ⟨_, _, rfl⟩

theorem Merging.exists_step (it : Iterator) (h : Merging files wrapperOf world it.msgQueue)
    (hsound : world.SchemataSound)
    (hpending : Pending env.codecs files wrapperOf world it.msgQueue [] pending)
    (hreturns : ∀ b file, files[b]? = some file → ∀ c ∈ pending b, file.Returns c)
    (hqueue : it.msgQueue = p :: queue) :
    ∃ b c rest world₁ m st, wrapperOf b = some p ∧ pending b = c :: rest ∧
      it.deref env world = (world₁, .ok m) ∧ it.advance env world₁ = (st, .ok ()) ∧
      Merging files wrapperOf st.1 st.2.msgQueue ∧ st.1.SchemataSound ∧
      Pending env.codecs files wrapperOf st.1 st.2.msgQueue [] (Function.update pending b rest) := by
  obtain ⟨b, hb⟩ := h.mem (p := p) (by simp [hqueue])
  obtain ⟨w, file, hw, hscan, hfile, -⟩ := h.wrapper hb
  have hhead := hpending.some hb hw hfile
  rw [Unread, if_neg (by simp), if_pos (by simp [hqueue])] at hhead
  obtain ⟨rest, hrest, -⟩ := hhead
  obtain ⟨world₁, m, hderef⟩ := h.exists_deref env hsound hqueue hb hw hfile
    (hreturns b file hfile _ (by simp [hrest]))
  obtain ⟨_, _, w', bag, bag', hqueue', hw', hbag, -, hdef, hworld⟩ := Iterator.deref_ok hderef
  have hsound₁ : world₁.SchemataSound := by
    rw [hworld]
    exact hsound.set ((hsound bag (List.mem_of_getElem? hbag)).msgDefForTopic hdef).1
  have hderefed : Merging files wrapperOf world₁ (p :: queue) := by
    rw [hworld, ← hqueue]
    exact h.deref hbag (Bag.file_of_msgDefForTopic hdef)
  have hw₁ : world₁.wrappers[p]? = some w := by
    rw [hworld]
    exact hw
  have hupdate : Function.update (Function.update pending b rest) b
      (w.current :: Function.update pending b rest b) = pending := by
    rw [Function.update_self, Function.update_idem, ← hrest, Function.update_eq_self]
  have hpending₁ : Pending env.codecs files wrapperOf world₁ (p :: queue) [] pending := by
    rw [hqueue] at hpending
    refine ⟨hpending.none, fun {b' q v bag} hb' hv hbag => hpending.some hb' ?_ hbag⟩
    rw [hworld] at hv
    exact hv
  rw [← hupdate] at hpending₁
  have hpopped := (hderefed.pending_pop hb hw₁).1 hpending₁
  obtain ⟨hmerging, hnew⟩ := hderefed.pop env
  obtain ⟨world₂, queue₂, hread⟩ := hmerging.exists_readMessage hb List.mem_cons_self hpopped
  obtain ⟨hnext, -, -⟩ := hmerging.readMessage hb hnew hread
  have hpending₂ := (hmerging.pending_readMessage hb hnew List.not_mem_nil hread).2 hpopped
  have hsound₂ : world₂.SchemataSound := by
    have hbags := World.readMessage_bags env p (env.heap.pop world₁.compare (p :: queue)) world₁
    rw [hread] at hbags
    intro bag hbag
    exact hsound₁ bag (by rwa [← hbags])
  have hadvance : it.advance env world₁ = ((world₂, ⟨queue₂⟩), .ok ()) := by
    rw [Iterator.advance, hqueue]
    simp only [hread]
  exact ⟨b, w.current, rest, world₁, m, (world₂, ⟨queue₂⟩), hb, hrest, hderef, hadvance, hnext, hsound₂, hpending₂⟩

theorem mem_of_mem_update {b b' : ℕ} {c c' : CurrentMessage} {rest : List CurrentMessage}
    (hb : pending b = c :: rest) (hc : c' ∈ Function.update pending b rest b') : c' ∈ pending b' := by
  by_cases hne : b' = b
  · subst hne
    rw [Function.update_self] at hc
    rw [hb]
    exact List.mem_cons_of_mem _ hc
  · rwa [Function.update_of_ne hne] at hc

theorem sum_length_update_lt {b : ℕ} {c : CurrentMessage} {rest : List CurrentMessage} {bs : List ℕ}
    (hmem : b ∈ bs) (hb : pending b = c :: rest) :
    (bs.map fun b' => (Function.update pending b rest b').length).sum <
      (bs.map fun b' => (pending b').length).sum := by
  apply List.sum_lt_sum
  · intro b' _
    by_cases hne : b' = b
    · subst hne
      rw [Function.update_self, hb]
      simp
    · rw [Function.update_of_ne hne]
  · refine ⟨b, hmem, ?_⟩
    rw [Function.update_self, hb]
    simp

theorem Merging.exists_steps (it : Iterator) {bs : List ℕ} {n : ℕ}
    (h : Merging files wrapperOf world it.msgQueue) (hsound : world.SchemataSound)
    (hpending : Pending env.codecs files wrapperOf world it.msgQueue [] pending)
    (hreturns : ∀ b file, files[b]? = some file → ∀ c ∈ pending b, file.Returns c)
    (hbs : ∀ b p, wrapperOf b = some p → b ∈ bs)
    (hn : (bs.map fun b => (pending b).length).sum ≤ n) :
    ∃ out st', Steps env (world, it) out st' ∧ st'.2.atEnd := by
  induction n using Nat.strongRecOn generalizing world it pending with
  | ind n ih =>
    rcases hqueue : it.msgQueue with _ | ⟨p, queue⟩
    · exact ⟨[], _, .refl, by simp [Iterator.atEnd, hqueue]⟩
    obtain ⟨b, c, rest, world₁, m, ⟨world₂, it₂⟩, hb, hrest, hderef, hadvance, hnext, hsound₂, hpending₂⟩ :=
      h.exists_step it hsound hpending hreturns hqueue
    have hlt := sum_length_update_lt (hbs b p hb) hrest
    have hreturns₂ : ∀ b' file, files[b']? = some file →
        ∀ c ∈ Function.update pending b rest b', file.Returns c :=
      fun b' file hfile c hc => hreturns b' file hfile c (mem_of_mem_update hrest hc)
    obtain ⟨out, st', hsteps, hend⟩ := ih _ (hlt.trans_le hn) it₂ hnext hsound₂ hpending₂ hreturns₂ le_rfl
    exact ⟨_, st', .step hderef hadvance hsteps, hend⟩

end Ok

namespace View

variable {env : Env} {selection : Selection} {view : View} {world : World}
  {pending : ℕ → List CurrentMessage}

/-- In whatever order `begin()` comes to the wrappers, an iterator goes through all messages
when the chunks can be read and every message has a schema. -/
theorem exists_pass (env : Env) (selection : Selection) (pending : ℕ → List CurrentMessage)
    (hbags : ∀ b ∈ view.bags, b < world.bags.length) (hsound : world.SchemataSound)
    (hnone : ∀ b ∉ view.bags, pending b = [])
    (hfile : ∀ b ∈ view.bags, ∀ bag, world.bags[b]? = some bag →
      FileOrder env.codecs selection b bag (pending b) ∧ ∀ c ∈ pending b, bag.Returns c)
    {order : List ℕ} (horder : order.Perm (view.getMessages selection world).2.wrappers) :
    ∃ st out st', (view.getMessages selection world).1.begin env order = (st.1, .ok st.2) ∧
      Steps env st out st' ∧ st'.2.atEnd := by
  have hpending := (pending_getMessages env hbags horder).2
    ⟨hnone, fun b hb bag hbag => (hfile b hb bag hbag).1⟩
  obtain ⟨world', queue, hloop⟩ := (merging_getMessages hbags).exists_beginLoop
    (horder.nodup_iff.2 (wrapped_getMessages _ hbags).nodup) (by simp)
    (fun p hp => mem_wrappers_iff.1 (horder.mem_iff.1 hp))
    (fun p hp w hw => front_getMessages hbags (horder.mem_iff.1 hp) hw) hpending
  have hbegin : (view.getMessages selection world).1.begin env order = (world', .ok ⟨queue⟩) := by
    rw [World.begin, hloop]
  have hbegins : Begins env selection view world (world', ⟨queue⟩) := ⟨order, horder, hbegin⟩
  obtain ⟨hmerging, hstart⟩ := hbegins.merging hbags
  have hbagsEq : world'.bags = world.bags := by
    have hbegun := World.begin_bags env order (view.getMessages selection world).1
    rw [hbegin, (wrapped_getMessages _ hbags).bags] at hbegun
    exact hbegun
  have hviewed : ∀ b p, wrapperOf selection view world b = some p → b ∈ view.bags := by
    intro b p hb
    by_contra hne
    rw [(wrapperOf_eq_none_iff selection hbags).2 hne] at hb
    cases hb
  obtain ⟨out, st', hsteps, hend⟩ := Merging.exists_steps ⟨queue⟩ hmerging
    (fun bag hbag => hsound bag (by rwa [← hbagsEq]))
    ((hstart pending).2 ⟨hnone, fun b hb bag hbag => (hfile b hb bag hbag).1⟩)
    (fun b file hfile' c hc => by
      have hb : b ∈ view.bags := by
        by_contra hne
        simp [hnone b hne] at hc
      have hbag := List.getElem?_eq_getElem (hbags b hb)
      rw [files_getElem? hbag] at hfile'
      cases hfile'
      exact (hfile b hb _ hbag).2 c hc)
    hviewed le_rfl
  exact ⟨(world', ⟨queue⟩), out, st', hbegin, hsteps, hend⟩

end View

end Embag
