import PageDesign.Proofs.Markup.Word
import PageDesign.Node.Basic

/-! # Pages that markup can hold

Below its root, a page that markup can hold consists of elements and texts, its names
are names that tags can carry, and no two texts stand in a row: they would run
together.  What the texts may be differs from one question to the next, so `Proper p`
asks of them a property `p`.

`RunText` holds of the texts that come out of a reading.  One more thing can go wrong
when such a text is read again: it may begin as a tag does whose name stands apart from
its bracket (`loose`).  A text of which that is not true is a `SafeText`.
-/
namespace PageDesign
open Text Markup

namespace Node

mutual

/-- Whether a node is an element or a text that markup can hold, with all below it. -/
def Proper (p : String → Prop) : Node → Prop
  | root _ => False
  | element info children =>
    TagName info.tag ∧ (∀ a ∈ info.attributes, AttributeName a.name) ∧ ProperAll p children
  | text content => p content
  | attr _ => False

/-- Whether markup can hold the nodes of a list side by side. -/
def ProperAll (p : String → Prop) : List Node → Prop
  | [] => True
  | n :: rest =>
    Proper p n ∧ (n.isText = true → ∀ m ∈ rest.head?, m.isText = false) ∧ ProperAll p rest

end

end Node

namespace Markup

/-- A text that can be a run of markup from end to end. -/
structure RunText (content : String) : Prop where
  ne_nil : content.toList ≠ []
  trimmed : trim content.toList = content.toList
  noTag : NoTag content.toList

/-- Whether a text begins with a `<`, separators and a character of a tag name. -/
def loose : List Char → Bool
  | '<' :: c :: s => isSpace c && (skipSpace s).head?.any isTagChar
  | _ => false

/-- A run of markup that does not begin as a tag does, not even as one whose name stands
apart from its bracket. -/
structure SafeText (content : String) : Prop extends RunText content where
  not_loose : loose content.toList = false

instance (content : String) : Decidable (RunText content) :=
  decidable_of_iff
    (content.toList ≠ [] ∧ trim content.toList = content.toList ∧ NoTag content.toList)
    ⟨fun ⟨h1, h2, h3⟩ => ⟨h1, h2, h3⟩, fun ⟨h1, h2, h3⟩ => ⟨h1, h2, h3⟩⟩

instance (content : String) : Decidable (SafeText content) :=
  decidable_of_iff (RunText content ∧ loose content.toList = false)
    ⟨fun ⟨h1, h2⟩ => ⟨h1, h2⟩, fun ⟨h1, h2⟩ => ⟨h1, h2⟩⟩

end Markup

namespace Node

mutual

theorem Proper.mono {p q : String → Prop} (h : ∀ t, p t → q t) :
    ∀ {n : Node}, Proper p n → Proper q n
  | element _ _, ⟨ht, ha, hc⟩ => ⟨ht, ha, ProperAll.mono h hc⟩
  | text content, hp => h content hp

theorem ProperAll.mono {p q : String → Prop} (h : ∀ t, p t → q t) :
    ∀ {nodes : List Node}, ProperAll p nodes → ProperAll q nodes
  | [], _ => trivial
  | _ :: _, ⟨hn, ht, hr⟩ => ⟨Proper.mono h hn, ht, ProperAll.mono h hr⟩

end

end Node
end PageDesign
