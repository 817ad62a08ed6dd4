import Nodescan.Independence
import Nodescan.Tokenisation

/-!
# What a scan delivers for each connection

The tokens of a connection do not depend on the way its bytes are cut into reads. Nothing of the
other connections shows in the life of one. Together: whatever the engine interleaves, what the
callbacks of a connection have learnt is what the reference tokeniser makes of the bytes that were
read from it, from the moment its `on_connect` has set the first trigger.
-/

namespace Nodescan

open FaultM EngineM

variable {ω υ κ F : Type}

/-- The program sets no other triggers than those of the tokeniser, and its watch timeout callback
leaves the connection alone. -/
structure Program.Tokenising (p : Program υ F) : Prop where
  sets : ∀ cb u, ∀ c ∈ (p.callback cb u).1.2, c.Tokenising
  watch : ∀ ct u, (p.callback (.watchTimeout ct) u).1.2 = [] ∧
    (p.callback (.watchTimeout ct) u).2 = u

def Program.OnlyWatches (p : Program υ F) : Prop :=
  ∀ ct u, (p.callback (.watchTimeout ct) u).1.2 = [] ∧ (p.callback (.watchTimeout ct) u).2 = u

/-- The connection once its `on_connect` has run: a machine with the trigger it set, and what the
callbacks keep. -/
def Program.began (p : Program υ F) (f : F) (ct : ConnectedTarget) : Lvl4SM F × υ :=
  ((Lvl4SM.new 0).callAll (p.callback (.connected f ct) p.start).1.2,
    (p.callback (.connected f ct) p.start).2)

/-- What the callbacks have learnt in the session is what the reference tokeniser makes of its
bytes. -/
def ConnSession.Delivered (p : Program υ F) (f : F) (ct : ConnectedTarget) (x : ConnSession υ) (v : Bool)
    (q : Lvl4SM F × υ) (rest : List UInt8) : Prop :=
  ((scanner p.actions ct).drain (p.began f ct) x.received).2 = .ok (v, q, rest) ∧ q.2 = x.user

/-- On the bytes of the session the tokeniser meets no other triggers than its own. -/
def ConnSession.Tokenised (p : Program υ F) (f : F) (ct : ConnectedTarget) (x : ConnSession υ) : Prop :=
  Lvl4SM.TokenisingAlong p.actions ct (p.began f ct) x.received

/-- The two stand at the same trigger, with the same state of the callbacks. -/
def SameTrigger (a b : Lvl4SM F × κ) : Prop := b.1.trigger = a.1.trigger ∧ b.2 = a.2

theorem Lvl4SM.callAll_trigger {sm sm' : Lvl4SM F} (h : sm'.trigger = sm.trigger)
    (cs : List (SmCall F)) : (sm'.callAll cs).trigger = (sm.callAll cs).trigger := by
  induction cs generalizing sm sm' with
  | nil => exact h
  | cons c cs ih =>
    apply ih
    cases c with
    | setTrigger t => rfl
    | removeDataTrigger => rfl
    | setReconnect v => exact h
    | setOnConnect f => exact h

theorem Lvl4SM.callAll_buf (sm : Lvl4SM F) (cs : List (SmCall F)) :
    (sm.callAll cs).buf = sm.buf := by
  induction cs generalizing sm with
  | nil => rfl
  | cons c cs ih =>
    refine (ih (sm.call c)).trans ?_
    cases c <;> rfl

section Tokeniser

variable {acts : Actions F κ} {ct : ConnectedTarget}

theorem SameTrigger.next {a b : Lvl4SM F × κ} (xs : List UInt8) (h : SameTrigger a b) :
    (scanner acts ct).next b xs = (scanner acts ct).next a xs := by
  simp only [scanner, h.1]

theorem SameTrigger.act {a b a' : Lvl4SM F × κ} {v : Bool} (xs : List UInt8) (h : SameTrigger a b)
    (ha : (scanner acts ct).act a xs = .ok (v, a')) :
    ∃ b', (scanner acts ct).act b xs = .ok (v, b') ∧ SameTrigger a' b' := by
  obtain ⟨sm, k⟩ := a
  obtain ⟨sm', k'⟩ := b
  obtain ⟨ht, hk⟩ := h
  dsimp only at ht hk
  subst hk
  simp only [scanner, ht] at ha ⊢
  cases hs : sm.trigger with
  | base =>
    simp only [hs, Except.ok.injEq, Prod.mk.injEq] at ha
    obtain ⟨rfl, rfl⟩ := ha
    exact ⟨_, rfl, ht, rfl⟩
  | python obj =>
    simp only [hs, Except.ok.injEq, Prod.mk.injEq] at ha
    obtain ⟨rfl, rfl⟩ := ha
    exact ⟨_, rfl, ht, rfl⟩
  | size n f =>
    cases f with
    | none => simp [hs] at ha
    | some f =>
      simp only [hs, Except.ok.injEq, Prod.mk.injEq] at ha
      obtain ⟨rfl, rfl⟩ := ha
      exact ⟨_, rfl, Lvl4SM.callAll_trigger ht _, rfl⟩
  | char c f =>
    cases f with
    | none => simp [hs] at ha
    | some f =>
      simp only [hs, Except.ok.injEq, Prod.mk.injEq] at ha
      obtain ⟨rfl, rfl⟩ := ha
      exact ⟨_, rfl, Lvl4SM.callAll_trigger ht _, rfl⟩

theorem Lvl4SM.processLoop_more {fuel : ℕ} {sm : Lvl4SM F} {k : κ} {prevPos : ℕ}
    {r : Bool × Lvl4SM F × κ} (h : sm.processLoop acts ct fuel prevPos k = .ok r) (m : ℕ) :
    sm.processLoop acts ct (fuel + m) prevPos k = .ok r := by
  induction fuel generalizing sm k prevPos with
  | zero => simp [Lvl4SM.processLoop] at h
  | succ fuel ih =>
    rw [Nat.succ_add]
    rw [Lvl4SM.processLoop] at h ⊢
    cases ht : sm.processTrigger acts ct prevPos k with
    | error e => simp [ht] at h
    | ok r' =>
      obtain ⟨c, sm', k'⟩ := r'
      rw [ht] at h
      cases c with
      | canProcessAgain => exact ih h
      | noMoreToProcess => exact h
      | connectionEnd => exact h

theorem SameTrigger.symm {a b : Lvl4SM F × κ} (h : SameTrigger a b) : SameTrigger b a :=
  ⟨h.1.symm, h.2.symm⟩

theorem SameTrigger.along {a b : Lvl4SM F × κ} {xs : List UInt8} (h : SameTrigger a b)
    (ha : Lvl4SM.TokenisingAlong acts ct a xs) : Lvl4SM.TokenisingAlong acts ct b xs := by
  induction ha generalizing b with
  | intro htr _ ih =>
    refine .intro (h.1 ▸ htr) fun hn hb => ?_
    rw [h.next] at hn
    obtain ⟨a', ha', hsame⟩ := h.symm.act _ hb
    exact ih hn ha' hsame.symm

theorem Lvl4SM.drain_of_processLoop {fuel : ℕ} {sm sm' : Lvl4SM F} {k k' : κ} {v : Bool}
    (hs : Lvl4SM.TokenisingAlong acts ct (sm.control, k) sm.buf)
    (h : sm.processLoop acts ct fuel 0 k = .ok (v, sm', k')) :
    ∃ rest, ((scanner acts ct).drain (sm.control, k) sm.buf).2 = .ok (v, (sm'.control, k'), rest) ∧
      (v = true → rest = sm'.buf) := by
  have hmore := Lvl4SM.processLoop_more h (sm.buf.length + 1)
  have hagrees := sm.processLoop_agrees_drain acts ct (fuel + (sm.buf.length + 1)) k hs (by omega)
  rw [hmore] at hagrees
  generalize ((scanner acts ct).drain (sm.control, k) sm.buf).2 = res at hagrees
  rcases res with e | ⟨v', q, rest⟩
  · cases v <;> exact hagrees.elim
  · cases v with
    | true =>
      cases v' with
      | true => exact ⟨rest, by rw [hagrees.1], fun _ => hagrees.2.symm⟩
      | false => exact hagrees.elim
    | false =>
      cases v' with
      | true => exact hagrees.elim
      | false => exact ⟨rest, by rw [show (sm'.control, k') = q from hagrees], by simp⟩

end Tokeniser

section Life

variable {p : Program υ F} {cfg : Config F} {s : Fd} {f : F} {ct : ConnectedTarget}
  {x : ConnSession υ} {sm sm' : Lvl4SM F} {q : Lvl4SM F × υ}

/-- While the connection goes on, its buffer holds the rest, and no match for its trigger. -/
structure Current (p : Program υ F) (f : F) (ct : ConnectedTarget) (x : ConnSession υ)
    (sm : Lvl4SM F) : Prop where
  trigger : sm.trigger.Tokenising
  delivered : ∃ q, x.Delivered p f ct true q sm.buf ∧ SameTrigger q (sm.control, x.user)

theorem Current.quiescent (h : Current p f ct x sm) :
    (scanner p.actions ct).next (sm.control, x.user) sm.buf = none := by
  obtain ⟨q, ⟨hdrain, -⟩, hq⟩ := h.delivered
  rw [hq.next]
  exact Scanner.drain_quiescent _ hdrain

/-- `on_connect` is called on a fresh machine. -/
theorem Current.began (ht : sm.trigger = .base) (hb : sm.buf = [])
    (hx : (⟨(p.callback (.connected f ct) p.start).2, []⟩ : ConnSession υ).Tokenised p f ct) :
    Current p f ct ⟨(p.callback (.connected f ct) p.start).2, []⟩
      (sm.callAll (p.callback (.connected f ct) p.start).1.2) := by
  have hsame : (sm.callAll (p.callback (.connected f ct) p.start).1.2).trigger =
      (p.began f ct).1.trigger := Lvl4SM.callAll_trigger ht _
  refine ⟨hsame ▸ hx.start, p.began f ct, ⟨?_, rfl⟩, hsame, rfl⟩
  rw [Lvl4SM.callAll_buf, hb]
  exact congrArg Prod.snd (Scanner.drain_none _ (next_nil _ _ _))

theorem Current.received (h : Current p f ct x sm) {fuel n : ℕ} {r : ReadResult} {v : Bool} {u : υ}
    (hx : (⟨u, x.received ++ r.got n⟩ : ConnSession υ).Tokenised p f ct)
    (hr : sm.processLvl4Data p.actions ct fuel n r x.user = .ok (v, sm', u)) :
    (∃ v' q rest, (⟨u, x.received ++ r.got n⟩ : ConnSession υ).Delivered p f ct v' q rest) ∧
      (v = true → Current p f ct ⟨u, x.received ++ r.got n⟩ sm') := by
  have hq := h.quiescent
  obtain ⟨q, hdrain, hsame⟩ := h.delivered
  unfold Lvl4SM.processLvl4Data at hr
  unfold ConnSession.Tokenised at hx
  unfold ReadResult.got at hx ⊢
  split_ifs at hr hx ⊢
  · -- a read that failed brings nothing and ends the connection
    simp only [Except.ok.injEq, Prod.mk.injEq] at hr
    obtain ⟨rfl, -, rfl⟩ := hr
    rw [List.append_nil]
    exact ⟨⟨true, q, sm.buf, hdrain⟩, by simp⟩
  · rw [processLoop_quiescent p.actions ct h.trigger hq] at hr
    have halong : Lvl4SM.TokenisingAlong p.actions ct ((sm.growBy (r.bytes n)).control, x.user)
        (sm.growBy (r.bytes n)).buf := hsame.along (hx.right hdrain.1)
    obtain ⟨rest, hscan, hrest⟩ := Lvl4SM.drain_of_processLoop halong hr
    have hback : SameTrigger ((sm.growBy (r.bytes n)).control, x.user) q := hsame.symm
    obtain ⟨q', hq', hsame'⟩ := Scanner.drain_related (scanner p.actions ct)
      (fun xs h => h.next xs) (fun xs h ha => h.act xs ha) hback hscan
    have hwhole : ((scanner p.actions ct).drain (p.began f ct) (x.received ++ r.bytes n)).2 =
        .ok (v, q', rest) := by
      rw [Scanner.drain_append, hdrain.1]
      exact hq'
    refine ⟨⟨v, q', rest, hwhole, hsame'.2⟩, ?_⟩
    rintro rfl
    rw [← List.append_nil (x.received ++ r.bytes n)] at hx
    have htr : q'.1.trigger.Tokenising := (hx.right hwhole).start
    refine ⟨hsame'.1 ▸ htr, q', ⟨?_, hsame'.2⟩, hsame'.symm⟩
    rw [hwhole, hrest rfl]

theorem processBuffer_quiescent {fuel : ℕ} {u u' : υ} {v : Bool} (ht : sm.trigger.Tokenising)
    (hq : (scanner p.actions ct).next (sm.control, u) sm.buf = none)
    (hr : sm.processBuffer p.actions ct fuel u = .ok (v, sm', u')) :
    v = true ∧ sm' = sm ∧ u' = u := by
  cases fuel with
  | zero => simp [Lvl4SM.processBuffer, Lvl4SM.processLoop] at hr
  | succ fuel =>
    rw [Lvl4SM.processBuffer, Lvl4SM.processLoop,
      Lvl4SM.processTrigger_none p.actions ct ht hq] at hr
    simp only [Except.ok.injEq, Prod.mk.injEq] at hr
    exact ⟨hr.1.symm, hr.2.1.symm, hr.2.2.symm⟩

/-- What a session may hold: nothing yet, or what the reference tokeniser makes of its bytes. -/
def ConnSession.Sound (p : Program υ F) (cfg : Config F) (s : Fd) (x : ConnSession υ) : Prop :=
  x = ⟨p.start, []⟩ ∨ ∃ t f v q rest, cfg.callbackLvl4Connected = some f ∧
    x.Delivered p f ⟨t, s⟩ v q rest

/-- The same, where the tokeniser knows the triggers. -/
def ConnSession.Explained (p : Program υ F) (cfg : Config F) (s : Fd) (x : ConnSession υ) : Prop :=
  x = ⟨p.start, []⟩ ∨ ∃ t f, cfg.callbackLvl4Connected = some f ∧
    (x.Tokenised p f ⟨t, s⟩ → ∃ v q rest, x.Delivered p f ⟨t, s⟩ v q rest)

/-- Where a connection stands between two steps of its life. -/
inductive Conn.Sound (p : Program υ F) (cfg : Config F) (s : Fd) : Conn υ F → Prop
  | idle {c} (ho : c.isOpen = false) (ht : c.target = none) (hi : c.interest = none)
      (hm : ∀ sm, c.machine = some sm → sm.trigger = .base ∧ sm.buf = [])
      (hx : c.session.Explained p cfg s) : Conn.Sound p cfg s c
  | connecting {c t sm} (ht : c.target = some t) (hi : c.interest ≠ some .epollin)
      (ho : c.isOpen = true) (hm : c.machine = some sm) (htr : sm.trigger = .base)
      (hb : sm.buf = []) (hf : sm.funcConnect = cfg.callbackLvl4Connected)
      (hx : c.session = ⟨p.start, []⟩) : Conn.Sound p cfg s c
  | connected {c t sm f} (ht : c.target = some t) (hi : c.interest = some .epollin)
      (hm : c.machine = some sm) (hf : cfg.callbackLvl4Connected = some f)
      (hx : c.session.Tokenised p f ⟨t, s⟩ → Current p f ⟨t, s⟩ c.session sm) :
      Conn.Sound p cfg s c

theorem ConnSession.Explained.of_current {t : Target}
    (h : x.Tokenised p f ⟨t, s⟩ → Current p f ⟨t, s⟩ x sm)
    (hf : cfg.callbackLvl4Connected = some f) : x.Explained p cfg s := by
  refine Or.inr ⟨t, f, hf, fun hx => ?_⟩
  obtain ⟨q, hq, -⟩ := (h hx).delivered
  exact ⟨true, q, sm.buf, hq⟩

namespace Conn.Sound

variable {c c' : Conn υ F}

theorem session (h : c.Sound p cfg s) : c.session.Explained p cfg s := by
  cases h with
  | idle _ _ _ _ hx => exact hx
  | connecting _ _ _ _ _ _ _ hx => exact Or.inl hx
  | connected _ _ _ hf hx => exact .of_current hx hf

theorem close (h : c.session.Explained p cfg s) : c.close.Sound p cfg s :=
  .idle rfl rfl rfl (by simp [Conn.close]) h

theorem book (h : c.Sound p cfg s) (hm : c.machine = some sm) (hb : Booked sm sm') :
    Conn.Sound p cfg s { c with machine := some sm' } := by
  cases h with
  | idle ho ht hi hfresh hx =>
    refine .idle ho ht hi (fun sm₁ h₁ => ?_) hx
    rw [← Option.some.inj h₁, hb.trigger, hb.buf]
    exact hfresh sm hm
  | connecting ht hi ho hm' htr hbuf hf hx =>
    obtain rfl := Option.some.inj (hm.symm.trans hm')
    exact .connecting ht hi ho rfl (hb.trigger.trans htr) (hb.buf.trans hbuf)
      (hb.funcConnect.trans hf) hx
  | connected ht hi hm' hf hx =>
    obtain rfl := Option.some.inj (hm.symm.trans hm')
    refine .connected ht hi rfl hf fun hknown => ?_
    obtain ⟨htr, q, hq, hsame⟩ := hx hknown
    exact ⟨hb.trigger ▸ htr, q, hb.buf ▸ hq, hb.trigger.trans hsame.1, hsame.2⟩

theorem step (hp : p.OnlyWatches) (h : c.Sound p cfg s) (hs : ConnStep p cfg s c c') :
    c'.Sound p cfg s := by
  cases hs with
  | booked hm hb => exact h.book hm hb
  | made hm now =>
    cases h with
    | idle ho ht hi hfresh hx =>
      refine .idle ho ht hi (fun sm₁ h₁ => ?_) hx
      rw [← Option.some.inj h₁]
      exact ⟨rfl, rfl⟩
    | connecting _ _ _ hm' => simp [hm] at hm'
    | connected _ _ hm' => simp [hm] at hm'
  | @created sm sm' ho hi t hm hb =>
    cases h with
    | idle _ ht _ hfresh hx =>
      have hnew : sm.trigger = .base ∧ sm.buf = [] := by
        rcases hm with hm | ⟨-, now, rfl⟩
        · exact hfresh _ hm
        · exact ⟨rfl, rfl⟩
      exact .connecting rfl (by simp) rfl rfl (hb.trigger.trans hnew.1) (hb.buf.trans hnew.2)
        hb.funcConnect rfl
    | connecting _ _ ho' => simp [ho] at ho'
    | connected _ hi' => simp [hi] at hi'
  | watched ho =>
    cases h with
    | idle ho' => simp [ho] at ho'
    | connecting ht hi ho' hm htr hbuf hf hx =>
      refine .connecting ht (fun heq => hi ?_) ho' hm htr hbuf hf hx
      have hget := Option.some.inj heq
      cases hci : c.interest with
      | none => simp [hci] at hget
      | some i => rw [← hget, hci, Option.getD_some]
    | connected ht hi hm hf hx =>
      refine .connected ht ?_ hm hf hx
      simp [hi]
  | @connected sm t f hi ht hm hf =>
    cases h with
    | idle _ _ hi' => simp [hi] at hi'
    | connected _ hi' => simp [hi] at hi'
    | connecting _ _ _ hm' htr hbuf hf' hx =>
      obtain rfl := Option.some.inj (hm.symm.trans hm')
      have hcfg : cfg.callbackLvl4Connected = some f := hf'.symm.trans hf
      have hcur : ConnSession.Tokenised p f ⟨t, s⟩
          ⟨(p.callback (.connected f ⟨t, s⟩) c.session.user).2, c.session.received⟩ →
          Current p f ⟨t, s⟩
            ⟨(p.callback (.connected f ⟨t, s⟩) c.session.user).2, c.session.received⟩
            (sm.callAll (p.callback (.connected f ⟨t, s⟩) c.session.user).1.2) := by
        rw [hx]
        exact .began htr hbuf
      cases (p.callback (.connected f ⟨t, s⟩) c.session.user).1.1 with
      | true => exact .connected ht rfl rfl hcfg hcur
      | false => exact close (.of_current hcur hcfg)
  | @received sm sm' t v u _ n r hi ht hm hr =>
    cases h with
    | idle _ _ hi' => simp [hi] at hi'
    | connecting _ hi' => exact absurd hi hi'
    | @connected t' _ f ht' _ hm' hf hx =>
      obtain rfl := Option.some.inj (hm.symm.trans hm')
      obtain rfl := Option.some.inj (ht.symm.trans ht')
      have hnext : ConnSession.Tokenised p f ⟨t, s⟩ ⟨u, c.session.received ++ r.got n⟩ → _ :=
        fun hknown => (hx hknown.left).received hknown hr
      cases v with
      | true => exact .connected ht hi rfl hf fun hknown => (hnext hknown).2 rfl
      | false => exact close (Or.inr ⟨t, f, hf, fun hknown => (hnext hknown).1⟩)
  | @passed sm sm' t v u _ ht hm hr =>
    cases h with
    | idle _ ht' => simp [ht] at ht'
    | connecting ht' hi ho hm' htr hbuf hf hx =>
      obtain rfl := Option.some.inj (hm.symm.trans hm')
      have hquiet : (scanner p.actions ⟨t, s⟩).next (sm.control, c.session.user) sm.buf = none := by
        rw [hbuf]
        exact next_nil _ _ _
      obtain ⟨rfl, rfl, rfl⟩ := processBuffer_quiescent (htr ▸ trivial) hquiet hr
      exact .connecting ht' hi ho rfl htr hbuf hf hx
    | @connected _ _ f ht' hi hm' hf hx =>
      obtain rfl := Option.some.inj (hm.symm.trans hm')
      obtain rfl := Option.some.inj (ht.symm.trans ht')
      have hquiet : c.session.Tokenised p f ⟨t, s⟩ → v = true ∧ sm' = sm ∧ u = c.session.user :=
        fun hknown => processBuffer_quiescent (hx hknown).trigger (hx hknown).quiescent hr
      cases v with
      | true =>
        refine .connected ht hi rfl hf fun hknown => ?_
        obtain ⟨-, rfl, rfl⟩ := hquiet hknown
        exact hx hknown
      | false =>
        exact close (Or.inr ⟨t, f, hf, fun hknown => absurd (hquiet hknown).1 (by simp)⟩)
  | @warned sm hm peer =>
    obtain ⟨hcalls, huser⟩ := hp ⟨peer, s⟩ c.session.user
    rw [hcalls, huser]
    exact h.book hm ⟨rfl, rfl, rfl, rfl⟩
  | closed => exact close h.session

theorem steps (hp : p.OnlyWatches) (h : c.Sound p cfg s) (hs : ConnSteps p cfg s c c') :
    c'.Sound p cfg s := by
  induction hs with
  | refl => exact h
  | tail _ hs ih => exact ih.step hp hs

end Conn.Sound

end Life

theorem Program.Tokenising.began {p : Program υ F} (hp : p.Tokenising) (f : F) (ct : ConnectedTarget) :
    (p.began f ct).1.trigger.Tokenising :=
  Lvl4SM.callAll_tokenising trivial (hp.sets _ _)

end Nodescan
