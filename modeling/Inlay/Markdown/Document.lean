import Inlay.Markdown.Flow
import Inlay.Markdown.Inline
import Inlay.Text.Blank

/-! The tree of a Markdown document. -/

namespace Inlay
namespace Markdown

def parseRoot (document : Text) : Element :=
  let (drafts, stop) := Flow.ofDocument document
  .mk .root ⟨⟨0, 1, 1⟩, stop⟩ (Draft.toElements (readText (Draft.labelsOfAll drafts)) drafts)

/-- Languages whose code is a script unless others are asked for. -/
def defaultLanguages : List Text := ["js", "javascript", "jsx", "node"].map Text.ofString

def parse (languages : List Text) (document : Text) : Option Node :=
  if Text.isBlankText document then none
  else some ((parseRoot document).toNode fun l => languages.any (·.equalsIgnoringCase l))

end Markdown
end Inlay
