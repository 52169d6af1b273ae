import Treegram.Proofs.RoundTrip
import Treegram.Request

/-!
# Requests that were made up in order

However a request is made up from a new one, its request element stays the first child of the
document node (`Built.headed`). So a request that is written out is the message of one element, and
the peer reads it back below a document node of its own (`Built.decodeDocument_encode`).
-/

namespace Treegram

namespace Request

/-- Requests that are made up by the operations on them. -/
inductive Built : Request → Prop
  | new (agent : String) (kind : RequestKind) (command : String) : Built (.new agent kind command)
  | withValue (agent name value : String) : Built (.withValue agent name value)
  | hello (agent user password tag : String) : Built (.hello agent user password tag)
  | addElement {r r' : Request} {id : NodeId} (parent : NodeId) (name value : String) :
      Built r → r.addElement parent name value = .ok (r', id) → Built r'
  | addAttribute {r r' : Request} (node : NodeId) (name value : String) :
      Built r → r.addAttribute node name value = .ok r' → Built r'
  | setText {r r' : Request} (node : NodeId) (value : String) :
      Built r → r.setText node value = .ok r' → Built r'

theorem Built.addArgument {r r' : Request} (h : r.Built) {key value : String}
    (ha : r.addArgument key value = .ok r') : r'.Built := by
  unfold Request.addArgument at ha
  split at ha
  · simp at ha
  · split at ha
    · exact .addAttribute _ _ _ h ha
    · rcases he : r.addElement r.command key value with e | ⟨r₁, id⟩ <;> rw [he] at ha
      · simp [Except.map] at ha
      · rw [← Except.ok.inj ha]
        exact .addElement _ _ _ h he

/-- Arguments that are taken leave a request that was made up in order, the last refused or not. -/
theorem Built.addArguments : ∀ (args : List (String × String)) {r : Request}, r.Built →
    (r.addArguments args).1.Built
  | [], _, h => h
  | (key, value) :: args, r, h => by
    unfold Request.addArguments
    split
    · exact Built.addArguments args (h.addArgument ‹_›)
    · exact h

/-- Whether the request element is where it was put. -/
structure Headed (id : NodeId) (d : Document) : Prop where
  root : d.tree.node.id ≠ id
  element : ∃ l kids rest, d.tree.children = .cons ⟨id, l⟩ kids rest ∧ l.kind = .element

theorem headed_make (agent : String) (kind : Option RequestKind) (l : Label) (parts : List Label) :
    Headed ⟨1⟩ (make agent kind l parts).document where
  root := by
    show (⟨0⟩ : NodeId) ≠ ⟨1⟩
    decide
  element := ⟨_, _, _, rfl, rfl⟩

theorem Headed.graft {id parent : NodeId} {d d' : Document} {f : Forest Label}
    (h : Headed id d) (hd : d.graft parent f = .ok d') : Headed id d' := by
  obtain ⟨l, kids, rest, hf, hk⟩ := h.element
  unfold Document.graft at hd
  split at hd
  · rw [← Except.ok.inj hd]
    refine ⟨h.root, l, ?_⟩
    simp only [Tree.graft, hf]
    split
    · exact ⟨_, _, rfl, hk⟩
    · simp only [Forest.graft]
      split <;> exact ⟨_, _, rfl, hk⟩
  · simp at hd

theorem Headed.relabel {id node : NodeId} {d d' : Document} {g : Label → Label} (h : Headed id d)
    (hg : ∀ l, (g l).kind = l.kind) (hd : d.relabel node g = .ok d') : Headed id d' := by
  obtain ⟨l, kids, rest, hf, hk⟩ := h.element
  unfold Document.relabel at hd
  split at hd
  · rw [← Except.ok.inj hd]
    constructor
    · simp only [Tree.relabel]
      split <;> exact h.root
    · simp only [Tree.relabel, hf, Forest.relabel, Forest.map]
      split
      · exact ⟨_, _, _, rfl, by rw [hg, hk]⟩
      · exact ⟨_, _, _, rfl, hk⟩
  · simp at hd

theorem Headed.appendChild {id : NodeId} {d : Document} (h : Headed id d) (parent : NodeId)
    (l : Label) : Headed id (d.appendChild parent l).2 := by
  unfold Document.appendChild
  dsimp only
  split
  · exact h.graft ‹_›
  · split <;> exact ⟨h.root, h.element⟩

section

variable {r r' : Request} (h : Headed r.request r.document)

include h

theorem headed_addElement {id parent : NodeId} {name value : String}
    (ha : r.addElement parent name value = .ok (r', id)) : Headed r'.request r'.document := by
  have hh := h.appendChild parent (.element name value)
  unfold addElement at ha
  split at ha
  · simp at ha
  · split at ha
    · simp at ha
    · split at ha
      · rename_i hd
        rw [hd] at hh
        rw [← (Prod.mk.inj (Except.ok.inj ha)).1]
        exact hh
      · simp at ha

theorem headed_addAttribute {node : NodeId} {name value : String}
    (ha : r.addAttribute node name value = .ok r') : Headed r'.request r'.document := by
  unfold addAttribute at ha
  split at ha
  · simp at ha
  · split at ha
    · simp at ha
    · split at ha
      · simp at ha
      · split at ha
        · rename_i hd
          unfold Document.appendAttribute at hd
          rw [← Except.ok.inj ha]
          exact h.relabel (by exact fun _ => rfl) hd
        · simp at ha

theorem headed_setText {node : NodeId} {value : String} (ha : r.setText node value = .ok r') :
    Headed r'.request r'.document := by
  unfold setText at ha
  split at ha
  · rename_i hd
    unfold Document.setValue at hd
    rw [← Except.ok.inj ha]
    exact h.relabel (by exact fun _ => rfl) hd
  · simp at ha

end

theorem Built.headed {r : Request} (h : r.Built) : Headed r.request r.document := by
  induction h with
  | new agent kind command => exact headed_make ..
  | withValue agent name value => exact headed_make ..
  | hello agent user password tag => exact headed_make ..
  | addElement parent name value _ ha ih => exact headed_addElement ih ha
  | addAttribute node name value _ ha ih => exact headed_addAttribute ih ha
  | setText node value _ ha ih => exact headed_setText ih ha

/-- A request that was made up has an element to send. -/
theorem Built.labels {r : Request} (h : r.Built) :
    ∃ t, r.labels? = some t ∧ t.node.kind = .element := by
  obtain ⟨l, kids, rest, hf, hk⟩ := h.headed.element
  have hroot : (r.document.tree.node.id == r.request) = false := by
    rw [beq_eq_false_iff_ne]
    exact h.headed.root
  have hfind : r.document.subtree? r.request = some ⟨⟨r.request, l⟩, kids⟩ := by
    simp only [Document.subtree?, Tree.find?, hroot, hf, Forest.find?, beq_self_eq_true, if_true,
      Bool.false_eq_true, if_false]
  refine ⟨Tree.labels ⟨(⟨r.request, l⟩ : Node), kids⟩, ?_, hk⟩
  rw [labels?, hfind]
  rfl

/-- The document the peer reads of a request with the tree `t`. -/
def received (t : Tree Label) : Tree Label :=
  ⟨.document, .single t⟩

/-- The message that holds a request is read back, whatever follows. -/
theorem Built.decodeDocument_encode {r : Request} (h : r.Built) {bytes : Bytes}
    (hb : r.encode = .ok bytes) :
    ∃ t, r.labels? = some t ∧ bytes ≠ [] ∧
      ∀ rest, Wire.decodeDocument (bytes ++ rest) = (.ok (received t), rest) := by
  obtain ⟨t, ht, hk⟩ := h.labels
  unfold encode at hb
  rw [ht] at hb
  rcases he : t.encode with cause | bytes' <;> simp only [he, Except.mapError] at hb
  · simp at hb
  · obtain ⟨hs, rfl⟩ := t.encode_eq_ok_iff.1 he
    rw [← Except.ok.inj hb]
    have hne : t.node.kind ≠ .document := by
      rw [hk]
      decide
    refine ⟨t, ht, ?_, fun rest => ?_⟩
    · rw [Tree.units, List.flatMap_cons]
      exact List.append_ne_nil_of_left_ne_nil (WireUnit.bytes_ne_nil _) _
    · rw [Wire.decodeDocument_units hs (fun hd => absurd hd hne), if_neg hne]
      rfl

end Request

end Treegram
